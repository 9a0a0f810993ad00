-- The list of every folder of an arranged tree follows the override file of the folder. What no
-- key names comes together at the place of the rest, sorted by the labels that are shown.
import Mathlib
import Sourcebook.Proofs.Contents.Loose

namespace Sourcebook

open Folder (Every Tidy Plain Worn)

namespace Arrange

/-- What is held under names of a kind: folders that are not empty, chapters and pages. -/
theorem held_of_kind (info : FolderInfo) (children : List Folder) (b : String → Bool) :
    ((available info children).filter fun h => b h.1).map (·.2) =
      ((children.filter (!·.isEmpty)).filter fun c => b c.segment).map (.folder ·.segment) ++
        (info.chapters.filter b).map .chapter ++ (info.pages.filter fun p => b p.id).map .page := by
  simp [available, List.filter_map, Function.comp_def]

theorem named_eq (info : FolderInfo) (children : List Folder) (key : String) :
    named (available info children) key =
      ((children.filter (!·.isEmpty)).filter (·.segment == key)).map (.folder ·.segment) ++
        (info.chapters.filter (· == key)).map .chapter ++
        (info.pages.filter (·.id == key)).map .page :=
  held_of_kind info children (· == key)

theorem labelOf_folder_congr {cs ds : List Folder} (h : Folder.labels cs = Folder.labels ds)
    (chapters : List Chapter) (segment : String) :
    labelOf cs chapters (.folder segment) = labelOf ds chapters (.folder segment) := by
  have hlabel : ∀ es : List Folder, (es.find? (·.segment == segment)).map (·.info.label) =
      ((Folder.labels es).find? (·.1 == segment)).map (·.2) := by
    intro es
    simp [Folder.labels, List.find?_map, Function.comp_def]
  simp only [labelOf, hlabel, h]

end Arrange

namespace Tree

variable {rules : Rules} {additions : List Addition} {spot : List String} {metaName : String}
  {file : OverrideFile} {w : Arrange.Work} {info : FolderInfo} {inside : List Folder}
  {last : Folder}

/-! ## What stays in a list to the end -/

/-- The list of a folder before drained folders, and chapters that go later, are left out. -/
def wholeList (metaName : String) (spot : List String) (file : OverrideFile) (w : Arrange.Work)
    (info : FolderInfo) (inside : List Folder) : List Item :=
  let a := Arrange.arrangeBy file metaName spot w info inside
  let held := Arrange.available info inside
  let keyed := Arrange.keyed held fun id => (Folder.mk info inside).homes id
  (Override.front file.entries).flatMap keyed ++
    Arrange.sortRest a.2.children a.1.chapters (Arrange.unkeyed held file.entries) ++
    (Override.back file.entries).flatMap keyed

/-- What stays in the list of a folder to the end: folders that are filled, chapters that stay, and
everything else. -/
structure Sifts (rules : Rules) (additions : List Addition) (spot : List String)
    (whole : List Item) (q : Item → Bool) : Prop where
  folder : ∀ segment, q (.folder segment) = filled rules additions spot segment
  chapter : ∀ c path, .chapter c path ∈ additions → .chapter c.id ∈ whole →
    q (.chapter c.id) = ((Stay.last rules c.id (segments path) c.title).way == spot)
  page : ∀ p, q (.page p) = true
  separator : ∀ title, q (.separator title) = true

namespace Visit

theorem items_after (hv : Visit rules additions metaName spot file w info inside last) :
    (Arrange.arrangeBy file metaName spot w info inside).2.info.items =
      (wholeList metaName spot file w info inside).filter
        (!Arrange.isDrained (Arrange.arrangeBy file metaName spot w info inside).2.children ·) := by
  have hstart : ∀ id, ((Arrange.Draft.start file (pathText spot) w info inside).sight id).homes =
      (Folder.mk info inside).homes id := fun id => by rw [Arrange.start_sight]
  have h : (Arrange.Draft.done file metaName (pathText spot) w info inside).finish
      (Arrange.available info inside) = _ :=
    Arrange.Draft.finish_keys hv.once hv.tidy (Arrange.available_names hv.tidy hv.plain) rfl rfl rfl
  simp only [hstart] at h
  exact h

/-- The list in the end is the whole list, sifted. -/
theorem exists_sifts (hv : Visit rules additions metaName spot file w info inside last) :
    ∃ q, last.info.items = (wholeList metaName spot file w info inside).filter q ∧
      Sifts rules additions spot (wholeList metaName spot file w info inside) q := by
  obtain ⟨p, hp, hlast⟩ := hv.worn.items
  have hothers : ∀ item, (∀ id, item ≠ .chapter id) → p item = true := by
    intro item hne
    by_contra h
    obtain ⟨id, rfl⟩ := hp item (by simpa using h)
    exact hne id rfl
  have hchapters : ∀ c path, .chapter c path ∈ additions →
      .chapter c.id ∈ (Arrange.arrangeBy file metaName spot w info inside).2.info.items →
      p (.chapter c.id) = ((Stay.last rules c.id (segments path) c.title).way == spot) := by
    intro c path hc hmem
    have hkept := hv.kept c path hc
    rw [hlast, List.mem_filter, and_iff_right hmem] at hkept
    rw [Bool.eq_iff_iff, hkept, beq_iff_eq]
    exact and_iff_left_of_imp fun hway => (hv.lists c path hc hway).mp hmem
  rw [hv.items_after] at hlast hchapters
  refine ⟨fun item => p item && !Arrange.isDrained _ item, hlast.trans List.filter_filter, ?_⟩
  exact {
    folder := fun segment => by
      rw [hothers _ (by simp), Bool.true_and, hv.isDrained_folder, Bool.not_not]
    chapter := fun c path hc hmem => by
      rw [← hchapters c path hc (List.mem_filter.mpr ⟨hmem, rfl⟩)]
      exact Bool.and_true _
    page := fun p => by
      rw [hothers _ (by simp)]
      rfl
    separator := fun title => by
      rw [hothers _ (by simp)]
      rfl }

/-! ## What the keys list, sifted -/

theorem mem_wholeList_of_keyed {e : String × Override} {item : Item} (he : e ∈ file.entries)
    (hi : item ∈ Arrange.keyed (Arrange.available info inside)
      (fun id => (Folder.mk info inside).homes id) e) :
    item ∈ wholeList metaName spot file w info inside := by
  unfold wholeList
  dsimp only
  have hsplit : Override.front file.entries ++ Override.back file.entries = file.entries :=
    Override.front_append_back
  rw [← hsplit, List.mem_append] at he
  rw [List.mem_append, List.mem_append]
  rcases he with he | he
  · exact Or.inl (Or.inl (List.mem_flatMap_of_mem he hi))
  · exact Or.inr (List.mem_flatMap_of_mem he hi)

theorem mem_wholeList_of_unkeyed {item : Item}
    (hi : item ∈ Arrange.unkeyed (Arrange.available info inside) file.entries) :
    item ∈ wholeList metaName spot file w info inside := by
  unfold wholeList
  dsimp only
  rw [List.mem_append, List.mem_append, (Arrange.sortRest_perm _).mem_iff]
  exact Or.inl (Or.inr hi)

variable {whole : List Item} {q : Item → Bool}

theorem folders_sifted (hv : Visit rules additions metaName spot file w info inside last)
    (hq : Sifts rules additions spot whole q) (b : String → Bool) :
    (((inside.filter (!·.isEmpty)).filter fun c => b c.segment).map (Item.folder ·.segment)).filter q =
      ((inside.map Folder.segment).filter fun s =>
        filled rules additions spot s && b s).map .folder := by
  rw [List.filter_map, List.filter_filter, List.filter_filter, List.filter_map, List.map_map]
  refine congrArg _ (List.filter_congr fun c hc => ?_)
  simp only [Function.comp_apply, hq.folder]
  cases hf : filled rules additions spot c.segment with
  | true => simp [hv.not_isEmpty_before hc hf]
  | false => simp

theorem chapters_sifted (hv : Visit rules additions metaName spot file w info inside last)
    (hq : Sifts rules additions spot whole q) {b : String → Bool}
    (hin : ∀ id ∈ info.chapters, b id = true → .chapter id ∈ whole) :
    ((info.chapters.filter b).map Item.chapter).filter q =
      ((residents rules additions spot).filter fun c => c.2 == spot && b c.1.id).map
        (.chapter ·.1.id) := by
  have hhere := congrArg (List.map fun c : Chapter => Item.chapter c.id)
    (residents_here rules additions spot fun c => b c.id)
  rw [List.map_map] at hhere
  refine Eq.trans ?_ hhere.symm
  rw [hv.chapters] at hin ⊢
  rw [List.filter_map, List.filter_map, List.filter_map, List.map_map, List.filter_filter]
  refine congrArg _ (List.filter_congr fun c hc => ?_)
  obtain ⟨path, ha, rfl⟩ := mem_chaptersAt.mp hc
  simp only [Function.comp_apply]
  cases hb : b c.id with
  | true =>
    rw [hq.chapter c path ha (hin c.id (List.mem_map_of_mem hc) hb), Bool.and_true, Bool.true_and]
  | false => rw [Bool.and_false, Bool.false_and]

theorem pages_sifted (hq : Sifts rules additions spot whole q) (pages : List ReferencePage) :
    (pages.map Item.page).filter q = pages.map .page := by
  rw [List.filter_eq_self]
  intro item hitem
  obtain ⟨p, -, rfl⟩ := List.mem_map.mp hitem
  exact hq.page p

/-- A key with a slash calls one chapter at most, the one of its address. -/
theorem called_eq (hp : Proper additions) {key : String} (hs : '/' ∈ key.toList) :
    ((residents rules additions spot).filter (calls rules spot key)).map
        (fun c => Item.chapter c.1.id) =
      if .chapter (Arrange.hoistKey key).2 ∈
        ((residents rules additions spot).filter (calls rules spot key)).map
          (fun c => Item.chapter c.1.id)
      then [.chapter (Arrange.hoistKey key).2] else [] := by
  refine eq_of_nodup_of_all_eq ?_ fun item hitem => ?_
  · have hresidents : ((residents rules additions spot).map (·.1.id)).Nodup :=
      nodup_residents hp.once
    have hids := ((List.filter_sublist (p := calls rules spot key)).map (·.1.id)).nodup hresidents
    have hchapters := hids.map (f := Item.chapter) fun _ _ h => Item.chapter.inj h
    rwa [List.map_map] at hchapters
  · obtain ⟨c, hc, rfl⟩ := List.mem_map.mp hitem
    obtain ⟨hmem, hcall⟩ := List.mem_filter.mp hc
    rw [(calls_address hp hs hmem hcall).1]

/-- A chapter that a key with a slash calls stands at the address of the key before the turn. -/
theorem home_of_called (hv : Visit rules additions metaName spot file w info inside last)
    (hp : Proper additions) {key : String} (hs : '/' ∈ key.toList)
    {c : Chapter × List String} (hc : c ∈ residents rules additions spot)
    (hcall : calls rules spot key c = true) :
    (Arrange.hoistKey key).1 ∈ (Folder.mk info inside).homes (Arrange.hoistKey key).2 := by
  obtain ⟨path, ha, hway, -⟩ := mem_residents.mp hc
  obtain ⟨hid, hbefore⟩ := calls_address hp hs hc hcall
  have hspot : spot <+: segments path :=
    (List.prefix_append spot _).trans (hway ▸ hbefore ▸ Stay.before_prefix ..)
  refine (hv.before _ _).mpr ⟨c.1, path, ha, hid, hspot, ?_⟩
  rw [← hway]
  exact hbefore

/-- Where a chapter stands at the address of a key, the key calls it if it stays. -/
theorem called_of_home (hv : Visit rules additions metaName spot file w info inside last)
    (hq : Sifts rules additions spot whole q) {key : String} (hs : '/' ∈ key.toList)
    (hhome : (Arrange.hoistKey key).1 ∈ (Folder.mk info inside).homes (Arrange.hoistKey key).2)
    (hin : .chapter (Arrange.hoistKey key).2 ∈ whole)
    (hstays : q (.chapter (Arrange.hoistKey key).2) = true) :
    .chapter (Arrange.hoistKey key).2 ∈
      ((residents rules additions spot).filter (calls rules spot key)).map
        (fun c => Item.chapter c.1.id) := by
  obtain ⟨c, path, ha, hid, -, hbefore⟩ := (hv.before _ _).mp hhome
  have hlast := (hq.chapter c path ha (hid ▸ hin)).symm.trans (hid ▸ hstays)
  rw [beq_iff_eq] at hlast
  have htakes : Stay.takes rules c.id (segments path) c.title spot key :=
    Stay.takes_iff.mpr ⟨_, (Arrange.address_hoistKey hs).1, hbefore, by
      rw [hid, (Arrange.address_hoistKey hs).2]⟩
  refine List.mem_map.mpr ⟨(c, segments path), List.mem_filter.mpr ⟨?_, ?_⟩, by rw [hid]⟩
  · exact mem_residents.mpr ⟨path, ha, rfl, hlast⟩
  · simp [calls, htakes]

/-- A chapter that a folder has in the end stays in its list. -/
theorem sifts_resident (hq : Sifts rules additions spot whole q) {c : Chapter × List String}
    (hc : c ∈ residents rules additions spot) (hin : .chapter c.1.id ∈ whole) :
    q (.chapter c.1.id) = true := by
  obtain ⟨path, ha, hway, hlast⟩ := mem_residents.mp hc
  rw [hq.chapter c.1 path ha hin, ← hway, hlast, beq_self_eq_true]

/-- A key with a slash lists the chapter at its address when the chapter stays. -/
theorem hoisted_sifted (hv : Visit rules additions metaName spot file w info inside last)
    (hp : Proper additions) (hq : Sifts rules additions spot whole q) {key : String}
    (hs : '/' ∈ key.toList)
    (hin : (Arrange.hoistKey key).1 ∈ (Folder.mk info inside).homes (Arrange.hoistKey key).2 →
      .chapter (Arrange.hoistKey key).2 ∈ whole) :
    (if (Arrange.hoistKey key).1 ∈ (Folder.mk info inside).homes (Arrange.hoistKey key).2 then
        [Item.chapter (Arrange.hoistKey key).2] else []).filter q =
      ((residents rules additions spot).filter (calls rules spot key)).map (.chapter ·.1.id) := by
  rw [called_eq hp hs]
  by_cases hhome : (Arrange.hoistKey key).1 ∈ (Folder.mk info inside).homes (Arrange.hoistKey key).2
  · have hstays : q (.chapter (Arrange.hoistKey key).2) = true ↔
        .chapter (Arrange.hoistKey key).2 ∈
          ((residents rules additions spot).filter (calls rules spot key)).map
            (fun c => Item.chapter c.1.id) := by
      refine ⟨hv.called_of_home hq hs hhome (hin hhome), fun hmem => ?_⟩
      obtain ⟨c, hc, hitem⟩ := List.mem_map.mp hmem
      rw [← hitem]
      exact sifts_resident hq (List.mem_filter.mp hc).1 (hitem ▸ hin hhome)
    rw [if_pos hhome, List.filter_cons, List.filter_nil]
    simp only [hstays]
  · rw [if_neg hhome, if_neg, List.filter_nil]
    intro hmem
    obtain ⟨c, hc, -⟩ := List.mem_map.mp hmem
    obtain ⟨hresident, hcall⟩ := List.mem_filter.mp hc
    exact hhome (hv.home_of_called hp hs hresident hcall)

/-- A key names one folder inside at most. -/
theorem folders_named (hv : Visit rules additions metaName spot file w info inside last)
    (key : String) : ((inside.map Folder.segment).filter fun s =>
        filled rules additions spot s && s == key).map Item.folder =
      if filled rules additions spot key then [.folder key] else [] := by
  have hmem : filled rules additions spot key = true → key ∈ inside.map Folder.segment := by
    intro hf
    obtain ⟨c, hc, hs, -⟩ := hv.filled_iff.mp hf
    rw [← Arrange.arrangeBy_segments file, ← hs]
    exact List.mem_map_of_mem hc
  have hnames : (inside.map Folder.segment).Nodup := hv.tidy.nodup
  have hone := eq_of_nodup_of_all_eq (a := key)
    (hnames.filter fun s => filled rules additions spot s && s == key) fun s hs => by
      have h := (List.mem_filter.mp hs).2
      rw [Bool.and_eq_true, beq_iff_eq] at h
      exact h.2
  rw [hone]
  cases hf : filled rules additions spot key with
  | true => simp [hf, hmem hf]
  | false => simp [hf]

theorem not_filled_of_slash (hv : Visit rules additions metaName spot file w info inside last)
    {key : String} (hs : '/' ∈ key.toList) : filled rules additions spot key = false := by
  rw [Bool.eq_false_iff]
  intro hf
  obtain ⟨c, hc, rfl, -⟩ := hv.filled_iff.mp hf
  exact (hv.tidy_after.name hc).2 hs

/-- A key with a slash names nothing that is held, so it brings the chapter at its address alone. -/
theorem brought_sifted_slash (hv : Visit rules additions metaName spot file w info inside last)
    (hp : Proper additions) (hq : Sifts rules additions spot whole q) {e : String × Override}
    (hs : '/' ∈ e.1.toList)
    (hin : (Arrange.hoistKey e.1).1 ∈ (Folder.mk info inside).homes (Arrange.hoistKey e.1).2 →
      .chapter (Arrange.hoistKey e.1).2 ∈ whole) :
    ((Arrange.named (Arrange.available info inside) e.1).map (Item.retitled e.2) ++
        if '/' ∈ e.1.toList ∧
          (Arrange.hoistKey e.1).1 ∈ (Folder.mk info inside).homes (Arrange.hoistKey e.1).2
        then [Item.chapter (Arrange.hoistKey e.1).2] else []).filter q =
      brought rules additions spot e.1 e.2 := by
  have hnone : Arrange.named (Arrange.available info inside) e.1 = [] :=
    Arrange.named_eq_nil.mpr fun hk => Arrange.available_names hv.tidy hv.plain _ hk hs
  have hpages : (pagesAt additions spot).filter (·.id == e.1) = [] := by
    rw [List.filter_eq_nil_iff, ← hv.pages]
    intro p hmem hid
    exact hv.plain.2 p hmem (beq_iff_eq.mp hid ▸ hs)
  simp only [hnone, hs, true_and, List.map_nil, List.nil_append]
  unfold brought
  rw [hv.not_filled_of_slash hs, hpages, List.map_nil, List.append_nil]
  exact hv.hoisted_sifted hp hq hs hin

/-- A key without a slash brings what it names among what is held. -/
theorem brought_sifted_plain (hv : Visit rules additions metaName spot file w info inside last)
    (hq : Sifts rules additions spot whole q) {e : String × Override} (hs : '/' ∉ e.1.toList)
    (hin : ∀ id ∈ info.chapters, (id == e.1) = true → .chapter id ∈ whole) :
    ((Arrange.named (Arrange.available info inside) e.1).map (Item.retitled e.2) ++
        if '/' ∈ e.1.toList ∧
          (Arrange.hoistKey e.1).1 ∈ (Folder.mk info inside).homes (Arrange.hoistKey e.1).2
        then [Item.chapter (Arrange.hoistKey e.1).2] else []).filter q =
      brought rules additions spot e.1 e.2 := by
  have hfolders := (hv.folders_sifted hq (· == e.1)).trans (hv.folders_named e.1)
  have hchapters := hv.chapters_sifted hq hin
  have hcalls : ∀ c ∈ residents rules additions spot, calls rules spot e.1 c =
      (c.2 == spot && c.1.id == e.1) := fun c _ => calls_of_plain hs c
  rw [← List.filter_congr hcalls] at hchapters
  have hpages := pages_sifted hq ((info.pages.filter (·.id == e.1)).map fun p =>
    { p with title := e.2.retitle p.title })
  rw [List.map_map, hv.pages] at hpages
  unfold brought
  rw [if_neg (fun h => hs h.1), List.append_nil, Arrange.named_eq, List.map_append,
    List.map_append, List.filter_append, List.filter_append, hv.pages, List.map_map,
    List.map_map, List.map_map]
  exact congrArg₂ (· ++ ·) (congrArg₂ (· ++ ·) hfolders hchapters) hpages

/-- What a key lists, sifted, is what it brings. -/
theorem keyed_sifted (hv : Visit rules additions metaName spot file w info inside last)
    (hp : Proper additions)
    (hq : Sifts rules additions spot (wholeList metaName spot file w info inside) q)
    {e : String × Override} (he : e ∈ file.entries) :
    (Arrange.keyed (Arrange.available info inside) (fun id => (Folder.mk info inside).homes id)
      e).filter q = listed rules additions spot e := by
  have hin : ∀ item ∈ Arrange.keyed (Arrange.available info inside)
      (fun id => (Folder.mk info inside).homes id) e,
      item ∈ wholeList metaName spot file w info inside :=
    fun item hitem => mem_wholeList_of_keyed he hitem
  unfold listed
  unfold Arrange.keyed at hin ⊢
  split
  · rfl
  · next hrest =>
    rw [if_neg hrest] at hin
    split
    · rw [List.filter_eq_self]
      simpa using hq.separator _
    · next hseparator =>
      rw [if_neg hseparator] at hin
      split
      · rfl
      · next hhidden =>
        rw [if_neg hhidden] at hin
        by_cases hs : '/' ∈ e.1.toList
        · exact hv.brought_sifted_slash hp hq hs fun hhome => hin _ (by simp [hs, hhome])
        · refine hv.brought_sifted_plain hq hs fun id hid hkey => ?_
          refine hin _ (List.mem_append_left _ (List.mem_map.mpr ⟨.chapter id, ?_, rfl⟩))
          rw [beq_iff_eq] at hkey
          exact Arrange.mem_named.mpr (Arrange.mem_available_chapter.mpr ⟨hkey.symm, hid⟩)

/-! ## What the keys leave, sifted -/

theorem unkeyed_sifted (hv : Visit rules additions metaName spot file w info inside last)
    (hq : Sifts rules additions spot (wholeList metaName spot file w info inside) q) :
    (Arrange.unkeyed (Arrange.available info inside) file.entries).filter q =
      remaining rules additions spot (inside.map Folder.segment) := by
  have hsplit : Arrange.unkeyed (Arrange.available info inside) file.entries =
      ((inside.filter (!·.isEmpty)).filter fun c => free rules spot c.segment).map
        (.folder ·.segment) ++ (info.chapters.filter (free rules spot)).map .chapter ++
        (info.pages.filter fun p => free rules spot p.id).map .page := by
    unfold free
    rw [hv.entries]
    exact Arrange.held_of_kind info inside fun name => (Override.about file.entries name).isNone
  have hchapter : ∀ id ∈ info.chapters, free rules spot id = true →
      .chapter id ∈ wholeList metaName spot file w info inside := by
    intro id hid hfree
    refine mem_wholeList_of_unkeyed ?_
    rw [hsplit]
    exact List.mem_append_left _ (List.mem_append_right _
      (List.mem_map_of_mem (List.mem_filter.mpr ⟨hid, hfree⟩)))
  unfold remaining
  rw [hsplit, List.filter_append, List.filter_append, hv.folders_sifted hq (free rules spot),
    hv.chapters_sifted hq hchapter, pages_sifted hq, hv.pages]

/-- The key that sorts an item of the rest is the same in the end. -/
theorem restKey_last (hv : Visit rules additions metaName spot file w info inside last)
    {chapters : List Chapter} {names : List String} {item : Item}
    (hsame : ∀ c path, .chapter c path ∈ additions →
      (Stay.last rules c.id (segments path) c.title).way = spot →
      (Arrange.arrangeBy file metaName spot w info inside).1.chapter? c.id =
        chapters.find? (·.id == c.id))
    (h : item ∈ remaining rules additions spot names) :
    Arrange.restKey (Arrange.arrangeBy file metaName spot w info inside).2.children
        (Arrange.arrangeBy file metaName spot w info inside).1.chapters item =
      Arrange.restKey last.children chapters item := by
  unfold remaining at h
  rw [List.mem_append, List.mem_append] at h
  rcases h with (h | h) | h
  · obtain ⟨s, -, rfl⟩ := List.mem_map.mp h
    have hlabel := Arrange.labelOf_folder_congr hv.worn.labels.symm
      (Arrange.arrangeBy file metaName spot w info inside).1.chapters s
    simp only [Arrange.restKey, hlabel]
    rfl
  · obtain ⟨c, hc, rfl⟩ := List.mem_map.mp h
    obtain ⟨path, ha, hway, hlast⟩ := mem_residents.mp (List.mem_filter.mp hc).1
    have hfind := hsame c.1 path ha (hway ▸ hlast)
    unfold Arrange.Work.chapter? at hfind
    simp only [Arrange.restKey, Arrange.labelOf, hfind]
  · obtain ⟨p, -, rfl⟩ := List.mem_map.mp h
    rfl

end Visit

/-! ## All folders -/

variable {source : Path} {disk : Disk}

/-- The list of a folder in the end: what the keys list, with what they leave at the place of the
rest, sorted by what is shown in the end. -/
theorem pass_items (hp : Proper additions)
    (hr : Arrange.Readable disk metaName (made source metaName additions).root) {f g : Folder}
    (hf : (made source metaName additions).root.find? spot = some f)
    (hg : (pass source metaName additions disk).2.find? spot = some g) :
    let rules := Arrange.rules disk metaName (made source metaName additions).root
    let key := Arrange.restKey g.children (pass source metaName additions disk).1.chapters
    ((rules spot).map (·.1)).Nodup ∧
    ∃ rest, g.info.items = (Override.front (rules spot)).flatMap (listed rules additions spot) ++
        rest ++ (Override.back (rules spot)).flatMap (listed rules additions spot) ∧
      rest.Perm (remaining rules additions spot (f.children.map Folder.segment)) ∧
      rest.Pairwise fun a b => (key a).le (key b) = true := by
  intro rules key
  obtain ⟨info, children⟩ := f
  obtain ⟨file, w, inside, last, hlabels, hlast, hv⟩ := exists_visit hp hr hf
  have hsegments := Folder.segments_of_labels hlabels
  obtain rfl : last = g := Option.some.inj (hlast.symm.trans hg)
  obtain ⟨q, hitems, hq⟩ := hv.exists_sifts
  have hentries : rules spot = file.entries := hv.entries
  have hsifted : ∀ es : List (String × Override), (∀ e ∈ es, e ∈ file.entries) →
      (es.flatMap (Arrange.keyed (Arrange.available info inside) fun id =>
        (Folder.mk info inside).homes id)).filter q = es.flatMap (listed rules additions spot) := by
    intro es hes
    rw [List.filter_flatMap]
    exact List.flatMap_congr fun e he => hv.keyed_sifted hp hq (hes e he)
  have hsplit : Override.front file.entries ++ Override.back file.entries = file.entries :=
    Override.front_append_back
  have hfront : ∀ e ∈ Override.front file.entries, e ∈ file.entries :=
    fun e he => hsplit ▸ List.mem_append_left _ he
  have hback : ∀ e ∈ Override.back file.entries, e ∈ file.entries :=
    fun e he => hsplit ▸ List.mem_append_right _ he
  set a := Arrange.arrangeBy file metaName spot w info inside with ha
  set left := Arrange.unkeyed (Arrange.available info inside) file.entries with hleft
  have hremaining : left.filter q =
      remaining rules additions spot (children.map Folder.segment) :=
    hsegments ▸ hv.unkeyed_sifted hq
  have hperm : ((Arrange.sortRest a.2.children a.1.chapters left).filter q).Perm
      (remaining rules additions spot (children.map Folder.segment)) :=
    hremaining ▸ (Arrange.sortRest_perm left).filter q
  refine ⟨hentries ▸ hv.once, (Arrange.sortRest a.2.children a.1.chapters left).filter q, ?_, hperm, ?_⟩
  · rw [hitems, hentries, ← hsifted _ hfront, ← hsifted _ hback, ← List.filter_append,
      ← List.filter_append]
    rfl
  · have hsorted : ((Arrange.sortRest a.2.children a.1.chapters left).filter q).Pairwise _ :=
      (Arrange.sortRest_sorted left).filter q
    refine hsorted.imp_of_mem fun {x y} hx hy hle => ?_
    have hsame : ∀ c path, .chapter c path ∈ additions →
        (Stay.last rules c.id (segments path) c.title).way = spot →
        a.1.chapter? c.id = (pass source metaName additions disk).1.chapters.find? (·.id == c.id) := by
      intro c path hc hway
      refine (hv.told c path hc hway).trans ((pass_stands hp hr hc).chapter.trans ?_).symm
      rw [show (Stay.last _ c.id (segments path) c.title).way = spot from hway, List.nil_append]
    rw [hv.restKey_last hsame (hperm.mem_iff.mp hx), hv.restKey_last hsame (hperm.mem_iff.mp hy)] at hle
    exact hle

/-- A folder of an arranged tree was there before. -/
theorem exists_made {g : Folder}
    (hr : Arrange.Readable disk metaName (made source metaName additions).root)
    (hg : (pass source metaName additions disk).2.find? spot = some g) :
    ∃ f, (made source metaName additions).root.find? spot = some f := by
  have hsite : spot ∈ (pass source metaName additions disk).2.sites (fun _ => 1) :=
    (Folder.mem_sites_iff (Arrange.arrange_tidy made_tidy (pass_returns hr))).mpr
      ⟨g, hg, Nat.one_ne_zero⟩
  rw [pass, Arrange.arrange_sites ⟨fun _ _ _ _ => rfl⟩] at hsite
  obtain ⟨f, hf, -⟩ := (Folder.mem_sites_iff made_tidy).mp hsite
  exact ⟨f, hf⟩

/-- A chapter is called by one key of a folder at most. -/
theorem calls_inj {c : Chapter × List String} {key other : String}
    (h : calls rules spot key c = true) (h' : calls rules spot other c = true) : key = other := by
  have hnot : ∀ k, ¬ (c.2 = spot ∧ Stay.takes rules c.1.id c.2 c.1.title spot k) := by
    rintro k ⟨hway, habove, -⟩
    obtain ⟨s, r, he⟩ := Stay.mem_above.mp habove
    rw [hway] at he
    exact List.cons_ne_nil s r (List.append_right_eq_self.mp he.symm)
  simp only [calls, Bool.or_eq_true, Bool.and_eq_true, beq_iff_eq, decide_eq_true_eq] at h h'
  rcases h with ⟨hway, rfl⟩ | h <;> rcases h' with ⟨hway', rfl⟩ | h'
  · rfl
  · exact absurd ⟨hway, h'⟩ (hnot other)
  · exact absurd ⟨hway', h⟩ (hnot key)
  · exact h.2.trans h'.2.symm

/-- An item of a list that follows the keys is brought by a key that does not hide it, or is left by
all keys. -/
theorem mem_of_items {items rest : List Item} {names : List String} {item : Item}
    (hitems : items = (Override.front (rules spot)).flatMap (listed rules additions spot) ++ rest ++
      (Override.back (rules spot)).flatMap (listed rules additions spot))
    (hrest : rest.Perm (remaining rules additions spot names)) (h : item ∈ items) :
    (∃ e ∈ rules spot, item ∈ listed rules additions spot e) ∨
      item ∈ remaining rules additions spot names := by
  have hsplit : Override.front (rules spot) ++ Override.back (rules spot) = rules spot :=
    Override.front_append_back
  rw [hitems, List.mem_append, List.mem_append, hrest.mem_iff] at h
  rcases h with (h | h) | h
  · obtain ⟨e, he, hi⟩ := List.mem_flatMap.mp h
    exact Or.inl ⟨e, hsplit ▸ List.mem_append_left _ he, hi⟩
  · exact Or.inr h
  · obtain ⟨e, he, hi⟩ := List.mem_flatMap.mp h
    exact Or.inl ⟨e, hsplit ▸ List.mem_append_right _ he, hi⟩

/-- What a key lists but for separators, it brings and does not hide. -/
theorem mem_listed {e : String × Override} {item : Item} (hne : ∀ t, item ≠ .separator t)
    (h : item ∈ listed rules additions spot e) :
    e.2.hidden = false ∧ item ∈ brought rules additions spot e.1 e.2 := by
  unfold listed at h
  split at h
  · cases h
  · split at h
    · exact absurd (List.mem_singleton.mp h) (hne _)
    · split at h
      · cases h
      · next hhidden => exact ⟨by simpa using hhidden, h⟩

theorem mem_brought {key : String} {o : Override} {item : Item} :
    item ∈ brought rules additions spot key o ↔
      (filled rules additions spot key = true ∧ item = .folder key) ∨
      (∃ c ∈ residents rules additions spot, calls rules spot key c = true ∧
        item = .chapter c.1.id) ∨
      ∃ p ∈ pagesAt additions spot, p.id = key ∧
        item = .page { p with title := o.retitle p.title } := by
  have hfolder : item ∈ (if filled rules additions spot key then [Item.folder key] else []) ↔
      filled rules additions spot key = true ∧ item = .folder key := by
    cases filled rules additions spot key <;> simp
  unfold brought
  simp only [List.mem_append, List.mem_map, List.mem_filter, hfolder, beq_iff_eq, or_assoc, and_assoc,
    eq_comm (b := item)]

theorem mem_remaining {names : List String} {item : Item} :
    item ∈ remaining rules additions spot names ↔
      (∃ s ∈ names, filled rules additions spot s = true ∧ free rules spot s = true ∧
        item = .folder s) ∨
      (∃ c ∈ residents rules additions spot, c.2 = spot ∧ free rules spot c.1.id = true ∧
        item = .chapter c.1.id) ∨
      ∃ p ∈ pagesAt additions spot, free rules spot p.id = true ∧ item = .page p := by
  unfold remaining
  simp only [List.mem_append, List.mem_map, List.mem_filter, Bool.and_eq_true, beq_iff_eq, or_assoc,
    and_assoc, eq_comm (b := item)]

/-- What is in the list of a folder was not brought by an entry that hides: another entry brought it,
or it is of the rest. -/
theorem brought_elsewhere {items rest : List Item} {names : List String}
    (hn : ((rules spot).map (·.1)).Nodup)
    (hitems : items = (Override.front (rules spot)).flatMap (listed rules additions spot) ++ rest ++
      (Override.back (rules spot)).flatMap (listed rules additions spot))
    (hrest : rest.Perm (remaining rules additions spot names)) {key : String} {o : Override}
    (he : (key, o) ∈ rules spot) (ho : o.hidden = true) {item : Item} (hitem : item ∈ items)
    (hne : ∀ t, item ≠ .separator t) :
    (∃ e ∈ rules spot, e.1 ≠ key ∧ item ∈ brought rules additions spot e.1 e.2) ∨
      item ∈ remaining rules additions spot names := by
  refine (mem_of_items hitems hrest hitem).imp_left ?_
  rintro ⟨e, hmem, hi⟩
  obtain ⟨hshown, hb⟩ := mem_listed hne hi
  refine ⟨e, hmem, fun hkey => ?_, hb⟩
  rw [List.inj_on_of_nodup_map hn hmem he hkey, ho] at hshown
  cases hshown

/-- What an entry of a folder hides is not in its list. -/
theorem not_listed_of_hidden (hp : Proper additions) {items rest : List Item} {names : List String}
    (hn : ((rules spot).map (·.1)).Nodup)
    (hitems : items = (Override.front (rules spot)).flatMap (listed rules additions spot) ++ rest ++
      (Override.back (rules spot)).flatMap (listed rules additions spot))
    (hrest : rest.Perm (remaining rules additions spot names)) {key : String} {o : Override}
    (he : (key, o) ∈ rules spot) (ha : Override.applies key o = true) (ho : o.hidden = true) :
    .folder key ∉ items ∧ (∀ p, .page p ∈ items → p.id ≠ key) ∧
      ∀ c path, .chapter c path ∈ additions → calls rules spot key (c, segments path) = true →
        .chapter c.id ∉ items := by
  have hfree : ¬ free rules spot key = true := by
    rw [free, Override.about_of_mem hn he ha]
    exact Bool.false_ne_true
  refine ⟨fun hitem => ?_, fun p hitem hid => ?_, fun c path hc hcall hitem => ?_⟩
  · rcases brought_elsewhere hn hitems hrest he ho hitem (by simp) with ⟨e, -, hkey, hb⟩ | h
    · simp only [mem_brought, Item.folder.injEq, reduceCtorEq, and_false, exists_false, or_false] at hb
      exact hkey hb.2.symm
    · simp only [mem_remaining, Item.folder.injEq, reduceCtorEq, and_false, exists_false, or_false] at h
      obtain ⟨s, -, -, hs, rfl⟩ := h
      exact hfree hs
  · rcases brought_elsewhere hn hitems hrest he ho hitem (by simp) with ⟨e, -, hkey, hb⟩ | h
    · simp only [mem_brought, Item.page.injEq, reduceCtorEq, and_false, exists_false, false_or] at hb
      obtain ⟨p', -, hid', rfl⟩ := hb
      exact hkey (hid'.symm.trans hid)
    · simp only [mem_remaining, Item.page.injEq, reduceCtorEq, and_false, exists_false, false_or] at h
      obtain ⟨p', -, hs, rfl⟩ := h
      exact hfree (hid ▸ hs)
  · have hsame : ∀ d ∈ residents rules additions spot, c.id = d.1.id → d = (c, segments path) := by
      intro d hd hid
      obtain ⟨other, hmem, hway, -⟩ := mem_residents.mp hd
      obtain ⟨rfl, hpath⟩ := eq_of_id hp hc hmem hid
      exact Prod.ext rfl (hway.trans hpath.symm)
    rcases brought_elsewhere hn hitems hrest he ho hitem (by simp) with ⟨e, -, hkey, hb⟩ | h
    · simp only [mem_brought, Item.chapter.injEq, reduceCtorEq, and_false, exists_false, false_or,
        or_false] at hb
      obtain ⟨d, hd, hcall', hid⟩ := hb
      rw [hsame d hd hid] at hcall'
      exact hkey (calls_inj hcall' hcall)
    · simp only [mem_remaining, Item.chapter.injEq, reduceCtorEq, and_false, exists_false, false_or,
        or_false] at h
      obtain ⟨d, hd, hway, hs, hid⟩ := h
      have hown : calls rules spot c.id (c, segments path) = true := by
        rw [hsame d hd hid] at hway
        simp [calls, show segments path = spot from hway]
      exact hfree (calls_inj hown hcall ▸ hid ▸ hs)

/-- The lists of an arranged tree follow the override files. What the keys of a folder bring comes in
the order of the keys, without what they hide; a separator comes where its key stands. What no key
names comes together, behind what the keys up to the last mark of the rest bring: folders first, then
by the labels that are shown in the end, then by priority. -/
theorem lists_follow_their_keys (hn : Named additions)
    (hr : Arrange.Readable disk metaName (made source metaName additions).root) :
    let t := made source metaName additions
    let rules := Arrange.rules disk metaName t.root
    let arranged := (t.arrange disk).1
    (t.arrange disk).2.2 = none ∧
    ∀ spot g, (spot, g) ∈ arranged.nodes → ∃ f rest, (spot, f) ∈ t.nodes ∧
      g.info.items = (Override.front (rules spot)).flatMap (listed rules additions spot) ++ rest ++
        (Override.back (rules spot)).flatMap (listed rules additions spot) ∧
      rest.Perm (remaining rules additions spot (f.children.map Folder.segment)) ∧
      (rest.Pairwise fun a b => (Arrange.restKey g.children arranged.chapters a).le
        (Arrange.restKey g.children arranged.chapters b) = true) ∧
      ∀ key o, (key, o) ∈ rules spot → Override.applies key o = true → o.hidden = true →
        .folder key ∉ g.info.items ∧ (∀ p, .page p ∈ g.info.items → p.id ≠ key) ∧
        ∀ c path, .chapter c path ∈ additions → calls rules spot key (c, segments path) = true →
          .chapter c.id ∉ g.info.items := by
  intro t rules arranged
  have harranged : t.arrange disk = _ := arrange_made
  have hroot : arranged.root = (pass source metaName additions disk).2 :=
    congrArg (·.1.root) harranged
  have hchapters : arranged.chapters = (pass source metaName additions disk).1.chapters :=
    congrArg (·.1.chapters) harranged
  refine ⟨(congrArg (·.2.2) harranged).trans (pass_returns hr), fun spot g hg => ?_⟩
  have htidy : arranged.root.Tidy := hroot ▸ Arrange.arrange_tidy made_tidy (pass_returns hr)
  obtain ⟨v, hv, hfind⟩ := Folder.find?_of_mem_nodes htidy hg
  obtain rfl : spot = v := hv
  rw [hroot] at hfind
  obtain ⟨f, hf⟩ := exists_made hr hfind
  -- The lists are those of the tree whose pages have no place yet.
  obtain ⟨hshown, hsame⟩ := @pass_loose source metaName additions disk hn.once
  have hmade : (made source metaName (additions.map Addition.loose)).root = t.root := made_loose_root
  have hlists := pass_items hn.proper (hmade ▸ hr) (hmade ▸ hf) (hsame ▸ hfind)
  rw [hmade] at hlists
  obtain ⟨hkeys, rest, hitems, hperm, hsorted⟩ := hlists
  refine ⟨f, rest, Folder.mem_nodes_of_find? hf [], listed_loose ▸ hitems,
    remaining_loose _ ▸ hperm, ?_, fun key o he ha ho => ?_⟩
  · refine hsorted.imp fun {a b} h => ?_
    rw [hchapters]
    rwa [Arrange.restKey_congr hshown, Arrange.restKey_congr hshown] at h
  · obtain ⟨hfolder, hpage, hchapter⟩ := not_listed_of_hidden hn.proper hkeys hitems hperm he ha ho
    refine ⟨hfolder, hpage, fun c path hc hcall => ?_⟩
    exact hchapter c.loose path (List.mem_map.mpr ⟨_, hc, rfl⟩) hcall

/-- A separator, the place of the rest, and a key that takes a chapter up. -/
def sampleOrder : List UInt8 :=
  [123, 34, 45, 45, 45, 34, 58, 34, 83, 34, 44, 34, 46, 46, 46, 34, 58, 34, 34, 44, 34, 97, 47, 120,
    34, 58, 34, 34, 125]

theorem sampleOrder_readable :
    Arrange.Readable (sampleDisk sampleOrder) "_meta.json" sampleTree.root :=
  Folder.every_iff.mpr (show ∀ n ∈ Folder.nodes [] _, _ by decide)

theorem the_rest_comes_between_a_separator_and_a_chapter :
    Named sample ∧ Arrange.Readable (sampleDisk sampleOrder) "_meta.json" sampleTree.root ∧
    ∀ g, ([], g) ∈ (sampleTree.arrange (sampleDisk sampleOrder)).1.nodes →
      g.info.items = [.separator "S", .folder "a", .chapter "x"] := by
  refine ⟨sample_proper.named, sampleOrder_readable, fun g hg => ?_⟩
  obtain ⟨-, hlists⟩ := lists_follow_their_keys sample_proper.named sampleOrder_readable
  obtain ⟨f, rest, hf, hitems, hperm, -⟩ := hlists [] g hg
  have hroot : f = sampleTree.root := by
    obtain ⟨v, hv, hfind⟩ := Folder.find?_of_mem_nodes made_tidy hf
    obtain rfl : [] = v := hv
    exact (Option.some.inj hfind).symm
  subst hroot
  have hfront : (Override.front (Arrange.rules (sampleDisk sampleOrder) "_meta.json" sampleTree.root
      [])).flatMap (listed (Arrange.rules (sampleDisk sampleOrder) "_meta.json" sampleTree.root)
        sample []) = [.separator "S"] := by decide +kernel
  have hback : (Override.back (Arrange.rules (sampleDisk sampleOrder) "_meta.json" sampleTree.root
      [])).flatMap (listed (Arrange.rules (sampleDisk sampleOrder) "_meta.json" sampleTree.root)
        sample []) = [.chapter "x"] := by decide +kernel
  have hrest : remaining (Arrange.rules (sampleDisk sampleOrder) "_meta.json" sampleTree.root)
      sample [] (sampleTree.root.children.map Folder.segment) = [.folder "a"] := by decide +kernel
  have hone : rest = [.folder "a"] := List.perm_singleton.mp (hperm.trans (.of_eq hrest))
  rw [hitems, hone]
  exact congrArg₂ (· ++ [Item.folder "a"] ++ ·) hfront hback

end Tree

end Sourcebook
