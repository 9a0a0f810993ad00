-- What the keys of a folder bring to its list, told by what was put into the tree and by the
-- override files alone: the folders that are not empty, the chapters that stay, and the pages.
import Mathlib
import Sourcebook.Proofs.Contents.Keyed
import Sourcebook.Proofs.Contents.Mentioned
import Sourcebook.Proofs.Contents.Turn

namespace Sourcebook

open Folder (Every Tidy Plain Worn)

/-- Where different things all are the same thing, there is one at most. -/
theorem eq_of_nodup_of_all_eq {α : Type} [DecidableEq α] {l : List α} {a : α} (hn : l.Nodup)
    (h : ∀ x ∈ l, x = a) : l = if a ∈ l then [a] else [] := by
  cases l with
  | nil => rfl
  | cons x l =>
    obtain rfl := h x List.mem_cons_self
    have hnil : l = [] := by
      rw [List.eq_nil_iff_forall_not_mem]
      intro y hy
      have hy' := h y (List.mem_cons_of_mem _ hy)
      exact (List.nodup_cons.mp hn).1 (hy' ▸ hy)
    simp [hnil]

namespace Tree

/-! ## What a list is told by -/

section Told

variable (rules : Rules) (additions : List Addition) (spot : List String)

/-- A folder inside is not empty after the folder around had its turn. -/
def filled (segment : String) : Bool :=
  additions.any fun
    | .chapter c path =>
      (spot ++ [segment]).isPrefixOf (Stay.after rules c.id (segments path) c.title spot).way
    | .page _ path => (spot ++ [segment]).isPrefixOf (segments path)
    | .mount _ _ => false

/-- A folder inside is not empty when the folder around has its turn. -/
def Stocked (segment : String) : Prop :=
  (∃ c path, .chapter c path ∈ additions ∧
    spot ++ [segment] <+: (Stay.before rules c.id (segments path) c.title spot).way) ∨
  ∃ p path, .page p path ∈ additions ∧ spot ++ [segment] <+: segments path

/-- A chapter that stays in a folder in the end, with the way to the folder that it was put into. -/
def resident? : Addition → Option (Chapter × List String)
  | .chapter c path =>
    if (Stay.last rules c.id (segments path) c.title).way = spot then some (c, segments path) else none
  | _ => none

def residents : List (Chapter × List String) := additions.filterMap (resident? rules spot)

/-- A key of a folder names a chapter: by its identifier, when it was put into the folder, or by its
address, when it stands further down. -/
def calls (key : String) (c : Chapter × List String) : Bool :=
  (c.2 == spot && c.1.id == key) || decide (Stay.takes rules c.1.id c.2 c.1.title spot key)

/-- What a key brings to the list: the folder of its name, the chapter that it names, and the pages
of its name with their new title. -/
def brought (key : String) (o : Override) : List Item :=
  (if filled rules additions spot key then [.folder key] else []) ++
    ((residents rules additions spot).filter (calls rules spot key)).map (.chapter ·.1.id) ++
    ((pagesAt additions spot).filter (·.id == key)).map
      fun p => .page { p with title := o.retitle p.title }

/-- What an entry lists. A key that marks the place of the rest lists nothing, a separator lists
itself, and what is hidden is not listed. -/
def listed (e : String × Override) : List Item :=
  if Override.isRest e.1 then []
  else if Override.separates e.1 e.2 then [.separator (e.2.title.getD "")]
  else if e.2.hidden then []
  else brought rules additions spot e.1 e.2

/-- No key of a folder names what has this name. -/
def free (name : String) : Bool := (Override.about (rules spot) name).isNone

/-- What no key of a folder names, with the names of the folders inside. -/
def remaining (segments : List String) : List Item :=
  (segments.filter fun s => filled rules additions spot s && free rules spot s).map .folder ++
    ((residents rules additions spot).filter fun c => c.2 == spot && free rules spot c.1.id).map
      (.chapter ·.1.id) ++
    ((pagesAt additions spot).filter fun p => free rules spot p.id).map .page

end Told

variable {rules : Rules} {additions : List Addition} {spot : List String}

theorem filled_iff {segment : String} : filled rules additions spot segment = true ↔
    (∃ c path, .chapter c path ∈ additions ∧
      spot ++ [segment] <+: (Stay.after rules c.id (segments path) c.title spot).way) ∨
    ∃ p path, .page p path ∈ additions ∧ spot ++ [segment] <+: segments path := by
  unfold filled
  rw [List.any_eq_true]
  constructor
  · rintro ⟨a, ha, h⟩
    cases a with
    | chapter c path => exact Or.inl ⟨c, path, ha, List.isPrefixOf_iff_prefix.mp h⟩
    | page p path => exact Or.inr ⟨p, path, ha, List.isPrefixOf_iff_prefix.mp h⟩
    | mount path dir => cases h
  · rintro (⟨c, path, ha, h⟩ | ⟨p, path, ha, h⟩)
    · exact ⟨_, ha, List.isPrefixOf_iff_prefix.mpr h⟩
    · exact ⟨_, ha, List.isPrefixOf_iff_prefix.mpr h⟩

theorem mem_residents {c : Chapter × List String} : c ∈ residents rules additions spot ↔
    ∃ path, .chapter c.1 path ∈ additions ∧ c.2 = segments path ∧
      (Stay.last rules c.1.id c.2 c.1.title).way = spot := by
  unfold residents
  rw [List.mem_filterMap]
  constructor
  · rintro ⟨a, ha, h⟩
    cases a with
    | chapter d path =>
      simp only [resident?, Option.ite_none_right_eq_some, Option.some.injEq] at h
      obtain ⟨hway, rfl⟩ := h
      exact ⟨path, ha, rfl, hway⟩
    | page p path => cases h
    | mount path dir => cases h
  · rintro ⟨path, ha, hc, hway⟩
    refine ⟨_, ha, ?_⟩
    rw [hc] at hway
    rw [resident?, if_pos hway, ← hc]

theorem resident?_of_last {c : Chapter} {path : String}
    (h : (Stay.last rules c.id (segments path) c.title).way = spot) :
    resident? rules spot (.chapter c path) = some (c, segments path) := if_pos h

theorem resident?_of_last_ne {c : Chapter} {path : String}
    (h : (Stay.last rules c.id (segments path) c.title).way ≠ spot) :
    resident? rules spot (.chapter c path) = none := if_neg h

theorem residents_sublist :
    ((residents rules additions spot).map (·.1.id)).Sublist (chapterIds additions) := by
  unfold residents chapterIds
  induction additions with
  | nil => exact .slnil
  | cons a as ih =>
    cases a with
    | chapter c path =>
      rw [List.filterMap_cons_some (b := c) (f := Addition.chapter?) rfl, List.map_cons]
      by_cases h : (Stay.last rules c.id (segments path) c.title).way = spot
      · rw [List.filterMap_cons_some (resident?_of_last h), List.map_cons]
        exact ih.cons_cons _
      · rw [List.filterMap_cons_none (resident?_of_last_ne h)]
        exact ih.cons _
    | page p path => exact ih
    | mount path dir => exact ih

theorem nodup_residents (h : (chapterIds additions).Nodup) :
    ((residents rules additions spot).map (·.1.id)).Nodup :=
  residents_sublist.nodup h

/-- The chapters that stay in the folder that they were put into. -/
theorem residents_here (rules : Rules) (additions : List Addition) (spot : List String)
    (b : Chapter → Bool) :
    ((residents rules additions spot).filter fun c => c.2 == spot && b c.1).map (·.1) =
      (chaptersAt additions spot).filter fun c =>
        b c && (Stay.last rules c.id spot c.title).way == spot := by
  unfold residents chaptersAt
  induction additions with
  | nil => rfl
  | cons a as ih =>
    cases a with
    | chapter c path =>
      by_cases hpath : segments path = spot
      · subst hpath
        have hat : Addition.chapterAt? (segments path) (.chapter c path) = some c := if_pos rfl
        rw [List.filterMap_cons_some hat]
        by_cases h : (Stay.last rules c.id (segments path) c.title).way = segments path
        · rw [List.filterMap_cons_some (resident?_of_last h)]
          cases hb : b c <;> simp [hb, h, ih]
        · rw [List.filterMap_cons_none (resident?_of_last_ne h), ih]
          simp [h]
      · have hat : Addition.chapterAt? spot (.chapter c path) = none := if_neg hpath
        rw [List.filterMap_cons_none hat, ← ih]
        by_cases h : (Stay.last rules c.id (segments path) c.title).way = spot
        · rw [List.filterMap_cons_some (resident?_of_last h)]
          simp [hpath]
        · rw [List.filterMap_cons_none (resident?_of_last_ne h)]
    | page p path => exact ih
    | mount path dir => exact ih

/-- An identifier belongs to one addition. -/
theorem eq_of_id (hp : Proper additions) {c d : Chapter} {path other : String}
    (hc : .chapter c path ∈ additions) (hd : .chapter d other ∈ additions) (hid : c.id = d.id) :
    c = d ∧ segments path = segments other := by
  have hmem : ∀ {b : Chapter} {way : String}, .chapter b way ∈ additions →
      b ∈ additions.filterMap Addition.chapter? := fun hb => List.mem_filterMap.mpr ⟨_, hb, rfl⟩
  have hhome := homes_of_mem hp hc
  rw [hid, homes_of_mem hp hd] at hhome
  exact ⟨List.inj_on_of_nodup_map hp.once (hmem hc) (hmem hd) hid, (List.cons.inj hhome).1.symm⟩

/-- A key without a slash names no chapter further down. -/
theorem calls_of_plain {key : String} (hs : '/' ∉ key.toList) (c : Chapter × List String) :
    calls rules spot key c = (c.2 == spot && c.1.id == key) := by
  have hnot : ¬ Stay.takes rules c.1.id c.2 c.1.title spot key := by
    rintro ⟨-, rfl⟩
    exact hs (Arrange.slash_mem_address _ _)
  simp [calls, hnot]

/-- A key with a slash names the chapter that stands at its address. -/
theorem calls_address (hp : Proper additions) {key : String} (hs : '/' ∈ key.toList)
    {c : Chapter × List String} (hc : c ∈ residents rules additions spot)
    (hcall : calls rules spot key c = true) : c.1.id = (Arrange.hoistKey key).2 ∧
      (Stay.before rules c.1.id c.2 c.1.title spot).way = spot ++ (Arrange.hoistKey key).1 := by
  obtain ⟨path, ha, hway, -⟩ := mem_residents.mp hc
  have hid : '/' ∉ c.1.id.toList := (hp.of_mem ha).1
  unfold calls at hcall
  rw [Bool.or_eq_true, Bool.and_eq_true, beq_iff_eq, beq_iff_eq, decide_eq_true_eq] at hcall
  rcases hcall with ⟨-, rfl⟩ | htakes
  · exact absurd hs hid
  · obtain ⟨u, hu, hbefore, rfl⟩ := Stay.takes_iff.mp htakes
    have hnames : ∀ s ∈ u, '/' ∉ s.toList := by
      intro s hmem
      have hprefix := hbefore ▸ Stay.before_prefix rules c.1.id c.2 c.1.title spot
      have hsegment : s ∈ segments path := hway ▸ hprefix.mem (List.mem_append_right _ hmem)
      exact (Path.mem_partsOf hsegment).2
    rw [Arrange.hoistKey_address hu hnames hid]
    exact ⟨rfl, hbefore⟩

/-- A key calls one of the chapters that stay at most. -/
theorem calls_unique (hp : Proper additions) {key : String} {c d : Chapter × List String}
    (hc : c ∈ residents rules additions spot) (hd : d ∈ residents rules additions spot)
    (hcalled : calls rules spot key c = true) (hdcalled : calls rules spot key d = true) : c = d := by
  have hid : c.1.id = d.1.id := by
    by_cases hs : '/' ∈ key.toList
    · rw [(calls_address hp hs hc hcalled).1, (calls_address hp hs hd hdcalled).1]
    · rw [calls_of_plain hs, Bool.and_eq_true, beq_iff_eq, beq_iff_eq] at hcalled hdcalled
      rw [hcalled.2, hdcalled.2]
  obtain ⟨path, hca, hcway, -⟩ := mem_residents.mp hc
  obtain ⟨other, hda, hdway, -⟩ := mem_residents.mp hd
  obtain ⟨hchapter, hway⟩ := eq_of_id hp hca hda hid
  exact Prod.ext hchapter (hcway.trans (hway.trans hdway.symm))

/-- A folder inside is not empty when chapters or pages stand in it, or further down. -/
theorem exists_child_iff {f : Folder} (ht : f.Tidy) {s : Chapter → List String → Stay}
    (hs : ∀ c path, (s c path).way <+: path)
    (hchapters : ∀ id v, v ∈ f.homes id ↔ ∃ c path, .chapter c path ∈ additions ∧ c.id = id ∧
      spot <+: segments path ∧ (s c (segments path)).way = spot ++ v)
    (hpages : ∀ key v, v ∈ f.sites (FolderInfo.pageCount key) ↔
      ∃ p path, .page p path ∈ additions ∧ p.key = key ∧ segments path = spot ++ v)
    {segment : String} :
    ((∃ c path, .chapter c path ∈ additions ∧ spot ++ [segment] <+: (s c (segments path)).way) ∨
      ∃ p path, .page p path ∈ additions ∧ spot ++ [segment] <+: segments path) ↔
      ∃ c ∈ f.children, c.segment = segment ∧ c.isEmpty = false := by
  constructor
  · rintro (⟨c, path, hc, t, hway⟩ | ⟨p, path, hp, t, hway⟩)
    · rw [List.append_assoc, List.singleton_append] at hway
      have hspot : spot <+: segments path :=
        (hway ▸ List.prefix_append spot _ : spot <+: _).trans (hs c _)
      obtain ⟨d, hd, hname, hmem⟩ := Folder.cons_mem_sites.mp
        ((hchapters c.id (segment :: t)).mpr ⟨c, path, hc, rfl, hspot, hway.symm⟩)
      exact ⟨d, hd, hname, (Folder.isEmpty_eq_false (ht.child hd)).mpr (Or.inl ⟨c.id, t, hmem⟩)⟩
    · rw [List.append_assoc, List.singleton_append] at hway
      obtain ⟨d, hd, hname, hmem⟩ := Folder.cons_mem_sites.mp
        ((hpages p.key (segment :: t)).mpr ⟨p, path, hp, rfl, hway.symm⟩)
      exact ⟨d, hd, hname, (Folder.isEmpty_eq_false (ht.child hd)).mpr (Or.inr ⟨p.key, t, hmem⟩)⟩
  · rintro ⟨d, hd, rfl, he⟩
    rcases (Folder.isEmpty_eq_false (ht.child hd)).mp he with ⟨id, t, h⟩ | ⟨key, t, h⟩
    · obtain ⟨c, path, hc, -, -, hway⟩ :=
        (hchapters id _).mp (Folder.cons_mem_sites.mpr ⟨d, hd, rfl, h⟩)
      exact Or.inl ⟨c, path, hc, t, by rw [hway, List.append_assoc, List.singleton_append]⟩
    · obtain ⟨p, path, hp, -, hway⟩ := (hpages key _).mp (Folder.cons_mem_sites.mpr ⟨d, hd, rfl, h⟩)
      exact Or.inr ⟨p, path, hp, t, by rw [hway, List.append_assoc, List.singleton_append]⟩

namespace Visit

variable {metaName : String} {file : OverrideFile} {w : Arrange.Work} {info : FolderInfo}
  {inside : List Folder} {last : Folder}

/-! ## Folders that are not empty -/

theorem tidy_after (hv : Visit rules additions metaName spot file w info inside last) :
    (Arrange.arrangeBy file metaName spot w info inside).2.Tidy := by
  have h : (Folder.mk info (Arrange.arrangeBy file metaName spot w info inside).2.children).Tidy :=
    Arrange.arrangeBy_inside_folders file (Arrange.lasting_tidy info) hv.tidy
  exact h.change_info (Arrange.arrangeBy file metaName spot w info inside).2.info

theorem filled_iff (hv : Visit rules additions metaName spot file w info inside last)
    {segment : String} : filled rules additions spot segment = true ↔
      ∃ c ∈ (Arrange.arrangeBy file metaName spot w info inside).2.children,
        c.segment = segment ∧ c.isEmpty = false :=
  Tree.filled_iff.trans (exists_child_iff hv.tidy_after
    (fun c path => Stay.after_prefix rules c.id path c.title spot) hv.after hv.within)

theorem stocked_iff (hv : Visit rules additions metaName spot file w info inside last)
    {segment : String} : Stocked rules additions spot segment ↔
      ∃ c ∈ inside, c.segment = segment ∧ c.isEmpty = false := by
  refine exists_child_iff hv.tidy
    (fun c path => Stay.before_prefix rules c.id path c.title spot) hv.before fun key v => ?_
  rw [← hv.within, Arrange.arrangeBy_sites (Arrange.fixed_pageCount key)]

/-- After the turn a folder inside is drained when it is not filled. -/
theorem isDrained_folder (hv : Visit rules additions metaName spot file w info inside last)
    (segment : String) :
    Arrange.isDrained (Arrange.arrangeBy file metaName spot w info inside).2.children
      (.folder segment) = !filled rules additions spot segment := by
  unfold Arrange.isDrained
  cases hf : filled rules additions spot segment with
  | true =>
    obtain ⟨c, hc, rfl, he⟩ := hv.filled_iff.mp hf
    dsimp only
    rw [Folder.find?_segment hv.tidy_after.nodup hc]
    exact he
  | false =>
    dsimp only
    cases hfind : (Arrange.arrangeBy file metaName spot w info inside).2.children.find?
        (·.segment == segment) with
    | none => rfl
    | some c =>
      have hc := List.mem_of_find?_eq_some hfind
      have hs : c.segment = segment := by simpa using List.find?_some hfind
      change c.isEmpty = true
      by_contra he
      rw [hv.filled_iff.mpr ⟨c, hc, hs, by simpa using he⟩] at hf
      cases hf

/-- What is not empty after the turn was not empty before. -/
theorem not_isEmpty_before (hv : Visit rules additions metaName spot file w info inside last)
    {c : Folder} (hc : c ∈ inside) (h : filled rules additions spot c.segment = true) :
    c.isEmpty = false := by
  obtain ⟨d, hd, hs, he⟩ := hv.filled_iff.mp h
  have hfades : List.Forall₂ Folder.Fades inside
      (Arrange.arrangeBy file metaName spot w info inside).2.children :=
    Arrange.arrangeBy_inside_folders file (Arrange.lasting_fades inside) (Folder.fades_same inside)
  obtain ⟨b, hb, hbd⟩ := exists_of_mem_right hfades hd
  have hsame : b = c := by
    have h1 := Folder.find?_segment hv.tidy.nodup hb
    rw [← hbd.1, hs, Folder.find?_segment hv.tidy.nodup hc] at h1
    exact (Option.some.inj h1).symm
  rw [← hsame, Bool.eq_false_iff]
  intro hempty
  rw [hbd.2 hempty] at he
  cases he

end Visit

end Tree

end Sourcebook
