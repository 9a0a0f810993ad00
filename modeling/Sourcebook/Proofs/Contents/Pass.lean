-- One folder is arranged, key by key. A key that does not concern a chapter leaves it as it
-- was, wherever it stands: here, further down, or nowhere in this folder.
import Mathlib
import Sourcebook.Proofs.Contents.Overrides
import Sourcebook.Proofs.Contents.Taking

namespace Sourcebook

open Folder (Lost Every Tidy)

namespace Arrange

/-! ## The chapters of the work -/

namespace Work

theorem chapter?_update {w : Work} {id : String} {f : Chapter → Chapter} (hf : ∀ c, (f c).id = c.id) :
    (w.updateChapter id f).chapter? id = (w.chapter? id).map f := by
  unfold chapter? updateChapter
  induction w.chapters with
  | nil => rfl
  | cons c cs ih =>
    by_cases hc : c.id = id
    · simp [hc, hf]
    · simpa [hc] using ih

theorem chapter?_update_other {w : Work} {id other : String} {f : Chapter → Chapter}
    (hf : ∀ c, (f c).id = c.id) (hne : other ≠ id) :
    (w.updateChapter id f).chapter? other = w.chapter? other := by
  unfold chapter? updateChapter
  induction w.chapters with
  | nil => rfl
  | cons c cs ih =>
    by_cases hc : c.id = id
    · simpa [hc, hf, hne.symm] using ih
    · by_cases ho : c.id = other
      · simp [ho, hne]
      · simpa [hc, ho] using ih

end Work

/-! ## What shows in a draft -/

/-- The folder of a draft. It lists what the keys have named so far. -/
def Draft.shown (d : Draft) : Folder := .mk { d.info with items := d.configured } d.children

/-- How a chapter shows in a draft: where it stands, where it is listed, and what it is. -/
structure Sight where
  homes : List (List String)
  listings : List (List String)
  chapter : Option Chapter

def Draft.sight (d : Draft) (id : String) : Sight :=
  ⟨d.shown.homes id, d.shown.listings id, d.work.chapter? id⟩

theorem Draft.homes_eq (d : Draft) (id : String) :
    d.shown.homes id = (Folder.mk d.info d.children).homes id := by
  simp [Draft.shown, Folder.homes, Folder.sites_mk]

/-- A chapter that is named is retitled, and listed here unless it is hidden. -/
def Sight.named (s : Sight) (o : Override) : Sight where
  homes := s.homes
  listings := if o.hidden then s.listings else [] :: s.listings
  chapter := s.chapter.map fun c => { c with title := o.retitle c.title }

theorem sitesOf_relabel {n : FolderInfo → Nat} (hn : ∀ i l, n { i with label := l } = n i)
    (segment label : String) (cs : List Folder) :
    Folder.sitesOf n (relabel segment label cs) = Folder.sitesOf n cs := by
  unfold relabel
  induction cs with
  | nil => rfl
  | cons c cs ih =>
    simp only [List.map_cons, Folder.sitesOf, ih]
    split
    · rw [Folder.withInfo_label_sites hn]
      rfl
    · rfl

/-! ## Places -/

theorem Draft.sight_rename_of_ne {d : Draft} {title id : String} {item : Item}
    (h : item ≠ .chapter id) : (d.rename title item).1.sight id = d.sight id := by
  cases item with
  | folder segment =>
    have hchapters := sitesOf_relabel (n := (·.chapters.count id)) (fun _ _ => rfl) segment title
      d.children
    have hitems := sitesOf_relabel (n := (·.items.count (.chapter id))) (fun _ _ => rfl) segment
      title d.children
    simp [Draft.rename, Draft.sight, Draft.shown, Folder.homes, Folder.listings, Folder.sites_mk,
      hchapters, hitems]
  | chapter other =>
    have hne : id ≠ other := fun he => h (he ▸ rfl)
    simp only [Draft.rename, Draft.sight, Draft.shown]
    rw [Work.chapter?_update_other (by intro c; rfl) hne]
  | page p => simp [Draft.rename, Draft.sight, Draft.shown, Folder.homes, Folder.listings,
      Folder.sites_mk]
  | separator t => rfl

theorem Draft.rename_configured (d : Draft) (title : String) (item : Item) :
    (d.rename title item).1.configured = d.configured := by
  cases item <;> rfl

/-- The item is still the chapter, or still not the chapter. -/
theorem Draft.rename_item_eq_chapter (d : Draft) (title id : String) (item : Item) :
    (d.rename title item).2 = .chapter id ↔ item = .chapter id := by
  cases item <;> simp [Draft.rename]

/-- An item is renamed at most, and then listed unless it is hidden. -/
theorem Draft.place_cases (d : Draft) (o : Override) (item : Item) :
    ∃ e : Draft × Item, (e = (d, item) ∨ ∃ title, e = d.rename title item) ∧
      d.place o item =
        if o.hidden then e.1 else { e.1 with configured := e.1.configured ++ [e.2] } := by
  unfold Draft.place
  cases o.title with
  | none => exact ⟨(d, item), Or.inl rfl, rfl⟩
  | some title =>
    dsimp only
    by_cases ht : title.isEmpty = true
    · rw [if_pos ht]
      exact ⟨(d, item), Or.inl rfl, rfl⟩
    · rw [if_neg ht]
      exact ⟨d.rename title item, Or.inr ⟨title, rfl⟩, rfl⟩

/-- Another item in the list of the draft does not show. -/
theorem Draft.sight_list_of_ne {d : Draft} {id : String} {item : Item} (h : item ≠ .chapter id) :
    { d with configured := d.configured ++ [item] }.sight id = d.sight id := by
  simp [Draft.sight, Draft.shown, Folder.homes, Folder.listings, Folder.sites_mk, h]

theorem Draft.sight_list_self (d : Draft) (id : String) :
    { d with configured := d.configured ++ [Item.chapter id] }.sight id =
      { d.sight id with listings := [] :: (d.sight id).listings } := by
  simp [Draft.sight, Draft.shown, Folder.homes, Folder.listings, Folder.sites_mk,
    List.replicate_succ]

theorem Draft.sight_place_of_ne {d : Draft} {o : Override} {id : String} {item : Item}
    (h : item ≠ .chapter id) : (d.place o item).sight id = d.sight id := by
  obtain ⟨e, he, hplace⟩ := d.place_cases o item
  have hsight : e.1.sight id = d.sight id ∧ e.2 ≠ .chapter id := by
    rcases he with rfl | ⟨title, rfl⟩
    · exact ⟨rfl, h⟩
    · exact ⟨Draft.sight_rename_of_ne h, (Draft.rename_item_eq_chapter d title id item).not.mpr h⟩
  rw [hplace]
  split
  · exact hsight.1
  · rw [Draft.sight_list_of_ne hsight.2]
    exact hsight.1

theorem Draft.sight_place_self (d : Draft) (o : Override) (id : String) :
    (d.place o (.chapter id)).sight id = (d.sight id).named o := by
  have hrename : ∀ title, (d.rename title (.chapter id)).1.sight id =
      { d.sight id with chapter := (d.sight id).chapter.map fun c => { c with title := title } } := by
    intro title
    simp only [Draft.rename, Draft.sight, Draft.shown]
    rw [Work.chapter?_update (by intro c; rfl)]
  have hitem : ∀ title, (d.rename title (.chapter id)).2 = .chapter id := fun _ => rfl
  unfold Draft.place Sight.named Override.retitle
  cases o.title with
  | none =>
    dsimp only
    split
    · simp
    · rw [Draft.sight_list_self]
      simp
  | some title =>
    dsimp only
    by_cases ht : title.isEmpty = true
    · simp only [ht, if_true]
      split
      · simp
      · rw [Draft.sight_list_self]
        simp
    · simp only [ht, Bool.false_eq_true, if_false]
      split
      · rw [hrename]
      · rw [hitem, Draft.sight_list_self, hrename]

/-- Items are placed in turn; the chapter is among them once at most. -/
theorem Draft.sight_places_of_not_mem {o : Override} {id : String} {items : List Item} {d : Draft}
    (h : .chapter id ∉ items) : (items.foldl (fun d item => d.place o item) d).sight id = d.sight id := by
  induction items generalizing d with
  | nil => rfl
  | cons item items ih =>
    rw [List.mem_cons, not_or] at h
    rw [List.foldl_cons, ih h.2, Draft.sight_place_of_ne (Ne.symm h.1)]

theorem Draft.sight_places {o : Override} {id : String} {items : List Item} {d : Draft}
    (h : items.count (.chapter id) = 1) :
    (items.foldl (fun d item => d.place o item) d).sight id = (d.sight id).named o := by
  have hmem : .chapter id ∈ items := List.count_pos_iff.mp (by rw [h]; exact Nat.one_pos)
  obtain ⟨before, after, rfl⟩ := List.append_of_mem hmem
  rw [List.count_append, List.count_cons_self] at h
  have hb : .chapter id ∉ before := List.count_eq_zero.mp (by omega)
  have ha : .chapter id ∉ after := List.count_eq_zero.mp (by omega)
  rw [List.foldl_append, List.foldl_cons, Draft.sight_places_of_not_mem ha, Draft.sight_place_self,
    Draft.sight_places_of_not_mem hb]

/-! ## Keys -/

/-- The items that a key names among what a folder holds. -/
def named (held : List (String × Item)) (key : String) : List Item :=
  (held.filter (·.1 == key)).map (·.2)

/-- A draft after a chapter was hoisted, before it is placed. -/
def Draft.taken (d : Draft) (path id : String) (children : List Folder) : Draft :=
  { d with
    children := children
    info := { d.info with chapters := d.info.chapters ++ [id] }
    work := d.work.updateChapter id fun c => { c with folder := some path } }

/-- What one key makes of a draft. -/
inductive Draft.Turn (path metaName : String) (held : List (String × Item)) (d : Draft)
    (key : String) (o : Override) : Draft → Prop
  | rest : Override.applies key o = false →
      Turn path metaName held d key o { d with restAt := some d.configured.length }
  | separator : Override.applies key o = false →
      Turn path metaName held d key o
        { d with configured := d.configured ++ [Item.separator (o.title.getD "")] }
  | named : Override.applies key o = true → key ∈ held.map (·.1) →
      Turn path metaName held d key o
        ((Arrange.named held key).foldl (fun d item => d.place o item) { d with used := key :: d.used })
  | missed (text : String) : Override.applies key o = true → key ∉ held.map (·.1) →
      '/' ∉ key.toList →
      Turn path metaName held d key o { d with work := d.work.remark (.detail text) }
  | hoisted {children : List Folder} : Override.applies key o = true → key ∉ held.map (·.1) →
      '/' ∈ key.toList →
      Lost (hoistKey key).2 (hoistKey key).1 (.mk d.info d.children) (.mk d.info children) →
      Turn path metaName held d key o
        ((d.taken path (hoistKey key).2 children).place o (.chapter (hoistKey key).2))
  | unknown (text : String) : Override.applies key o = true → key ∉ held.map (·.1) →
      '/' ∈ key.toList →
      (∀ f, ¬ Lost (hoistKey key).2 (hoistKey key).1 (.mk d.info d.children) f) →
      Turn path metaName held d key o { d with work := d.work.warn text }

theorem named_eq_nil {held : List (String × Item)} {key : String} :
    named held key = [] ↔ key ∉ held.map (·.1) := by
  unfold named
  rw [List.map_eq_nil_iff, List.filter_eq_nil_iff]
  simp only [beq_iff_eq, List.mem_map, not_exists, not_and]

/-- A key with a slash that finds its chapter takes it out and lists it here; one that does
not is reported. -/
theorem Draft.hoist_turn {path metaName : String} {held : List (String × Item)} {d : Draft}
    {key : String} {o : Override} (ha : Override.applies key o = true)
    (hk : key ∉ held.map (·.1)) (hs : '/' ∈ key.toList) :
    d.Turn path metaName held key o (d.hoist path metaName key o) := by
  unfold Draft.hoist
  dsimp only
  split
  · next hnone =>
    refine .unknown _ ha hk hs fun f hl => ?_
    rw [Folder.detach_eq_some.mpr hl] at hnone
    cases hnone
  · next f hsome =>
    have hl := Folder.detach_eq_some.mp hsome
    have hinfo := hl.info_eq (address_hoistKey hs).1
    obtain ⟨info, children⟩ := f
    cases hinfo
    exact .hoisted ha hk hs hl

theorem Draft.key_turn (path metaName : String) (held : List (String × Item)) (d : Draft)
    (key : String) (o : Override) : d.Turn path metaName held key o (d.key path metaName held key o) := by
  unfold Draft.key
  split
  · next hr => exact .rest (by simp [Override.applies, hr])
  · next hr =>
    split
    · next hs => exact .separator (by simp [Override.applies, hs])
    · next hs =>
      have ha : Override.applies key o = true := by simp [Override.applies, hr, hs]
      split
      · next hnil =>
        have hk := named_eq_nil.mp hnil
        split
        · next hslash => exact Draft.hoist_turn ha hk (by simpa using hslash)
        · next hslash => exact .missed _ ha hk (by simpa using hslash)
      · next hne =>
        refine .named ha ?_
        by_contra hk
        exact hne (named_eq_nil.mpr hk)

/-- A key concerns a chapter when it names it among what is held, or is the address of a
place where the chapter stands. -/
def Concerns (held : List (String × Item)) (homes : List (List String)) (id key : String)
    (o : Override) : Prop :=
  Override.applies key o = true ∧
    ((key, .chapter id) ∈ held ∨ ∃ way ∈ homes, way ≠ [] ∧ key = address way id)

theorem mem_named {held : List (String × Item)} {key : String} {item : Item} :
    item ∈ named held key ↔ (key, item) ∈ held := by
  simp only [named, List.mem_map, List.mem_filter, beq_iff_eq]
  constructor
  · rintro ⟨h, ⟨hh, rfl⟩, rfl⟩
    exact hh
  · intro h
    exact ⟨_, ⟨h, rfl⟩, rfl⟩

/-- Taking another chapter does not show. -/
theorem Draft.sight_taken_of_ne {d : Draft} {path id other : String} {way : List String}
    {children : List Folder}
    (hl : Lost other way (.mk d.info d.children) (.mk d.info children)) (hne : id ≠ other) :
    (d.taken path other children).sight id = d.sight id := by
  have hhomes := hl.homes_other hne
  have hlistings := hl.listings_other hne
  simp only [Folder.homes, Folder.listings, Folder.sites_mk, List.append_cancel_left_eq] at hhomes hlistings
  have hcount : (d.info.chapters ++ [other]).count id = d.info.chapters.count id := by
    simp [hne.symm]
  simp only [Draft.taken, Draft.sight, Draft.shown, Folder.homes, Folder.listings, Folder.sites_mk,
    hhomes, hlistings, hcount]
  rw [Work.chapter?_update_other (by intro c; rfl) hne]

/-- A key that does not concern a chapter leaves it as it was. -/
theorem Draft.sight_key_of_not_concerns {path metaName : String} {held : List (String × Item)}
    {d : Draft} {id key : String} {o : Override}
    (h : ¬ Concerns held (d.sight id).homes id key o) :
    (d.key path metaName held key o).sight id = d.sight id := by
  have hturn := d.key_turn path metaName held key o
  generalize d.key path metaName held key o = e at hturn
  cases hturn with
  | rest _ => rfl
  | separator _ => exact Draft.sight_list_of_ne (by simp)
  | named ha _ =>
    have hid : .chapter id ∉ named held key := fun hm => h ⟨ha, Or.inl (mem_named.mp hm)⟩
    rw [Draft.sight_places_of_not_mem hid]
    rfl
  | missed text _ _ _ => rfl
  | hoisted ha hk hs hl =>
    obtain ⟨hw, haddress⟩ := address_hoistKey hs
    have hne : id ≠ (hoistKey key).2 := by
      intro he
      rw [← he] at hl haddress
      have hmem : (hoistKey key).1 ∈ (d.sight id).homes := by
        show _ ∈ d.shown.homes id
        rw [Draft.homes_eq, hl.homes_perm.mem_iff]
        exact List.mem_cons_self
      exact h ⟨ha, Or.inr ⟨_, hmem, hw, haddress.symm⟩⟩
    rw [Draft.sight_place_of_ne (by simpa using hne.symm), Draft.sight_taken_of_ne hl hne]
  | unknown text _ _ _ _ => rfl

/-- The key that is the identifier of a chapter that is held once. -/
theorem Draft.sight_key_own {path metaName : String} {held : List (String × Item)} {d : Draft}
    {id : String} {o : Override} (ha : Override.applies id o = true)
    (hheld : (named held id).count (.chapter id) = 1) :
    (d.key path metaName held id o).sight id = (d.sight id).named o := by
  have hmem : .chapter id ∈ named held id := List.count_pos_iff.mp (by rw [hheld]; exact Nat.one_pos)
  have hk : id ∈ held.map (·.1) := List.mem_map.mpr ⟨_, mem_named.mp hmem, rfl⟩
  have hturn := d.key_turn path metaName held id o
  generalize d.key path metaName held id o = e at hturn
  cases hturn with
  | rest hn => rw [ha] at hn; cases hn
  | separator hn => rw [ha] at hn; cases hn
  | named _ _ => exact Draft.sight_places hheld
  | missed _ _ hn _ => exact absurd hk hn
  | hoisted _ hn _ _ => exact absurd hk hn
  | unknown _ _ hn _ _ => exact absurd hk hn

/-- A chapter that stands further down, and is listed nowhere else, is taken: it stands here. -/
theorem Draft.sight_taken {d : Draft} {path id : String} {way : List String}
    {children : List Folder} (ht : (Folder.mk d.info d.children).Tidy) (hw : way ≠ [])
    (hl : Lost id way (.mk d.info d.children) (.mk d.info children))
    (hhomes : (d.sight id).homes = [way]) (hlistings : ∀ v ∈ (d.sight id).listings, v = way) :
    (d.taken path id children).sight id =
      ⟨[[]], [], (d.sight id).chapter.map fun c => { c with folder := some path }⟩ := by
  have hgone : (Folder.mk d.info children).homes id = [] := by
    have hp := hl.homes_perm
    rw [← Draft.homes_eq, show d.shown.homes id = [way] from hhomes] at hp
    exact List.nil_perm.mp ((List.perm_cons _).mp hp)
  obtain ⟨hcount, hinside⟩ := Folder.sites_eq_nil.mp hgone
  have hshown : Lost id way d.shown (.mk { d.info with items := d.configured } children) :=
    hl.change_top hw _
  have hlist : (Folder.mk { d.info with items := d.configured } children).listings id = [] := by
    rw [List.eq_nil_iff_forall_not_mem]
    intro v hv
    have hway := hlistings v ((hshown.listings_sublist id).subset hv)
    have htidy : d.shown.Tidy := ht.change_info _
    exact hshown.not_listed (hshown.tidy htidy) (hway ▸ hv)
  obtain ⟨hitems, hbelow⟩ := Folder.sites_eq_nil.mp hlist
  simp only at hitems
  have hone : (d.info.chapters ++ [id]).count id = 1 := by
    simp only [List.count_append, List.count_singleton_self, hcount]
  simp only [Draft.taken, Draft.sight, Draft.shown, Folder.homes, Folder.listings, Folder.sites_mk,
    hone, hinside, hitems, hbelow]
  rw [Work.chapter?_update (by intro c; rfl)]
  rfl

/-- The key that is the address of a chapter that stands further down. -/
theorem Draft.sight_key_address {path metaName : String} {held : List (String × Item)} {d : Draft}
    {id : String} {o : Override} {way : List String} (ht : (Folder.mk d.info d.children).Tidy)
    (hw : way ≠ []) (hid : '/' ∉ id.toList) (ha : Override.applies (address way id) o = true)
    (hheld : address way id ∉ held.map (·.1)) (hhomes : (d.sight id).homes = [way])
    (hlistings : ∀ v ∈ (d.sight id).listings, v = way) :
    (d.key path metaName held (address way id) o).sight id =
      Sight.named ⟨[[]], [], (d.sight id).chapter.map fun c => { c with folder := some path }⟩ o := by
  have hmem : way ∈ (Folder.mk d.info d.children).homes id := by
    rw [← Draft.homes_eq, show d.shown.homes id = [way] from hhomes]
    exact List.mem_singleton_self _
  have hkey := hoistKey_address hw (fun s hs => (ht.way hmem s hs).2) hid
  have hturn := d.key_turn path metaName held (address way id) o
  generalize d.key path metaName held (address way id) o = e at hturn
  cases hturn with
  | rest hn => rw [ha] at hn; cases hn
  | separator hn => rw [ha] at hn; cases hn
  | named _ hn => exact absurd hn hheld
  | missed _ _ _ hn => exact absurd (slash_mem_address way id) hn
  | hoisted _ _ _ hl =>
    rw [hkey] at hl ⊢
    rw [Draft.sight_place_self, Draft.sight_taken ht hw hl hhomes hlistings]
  | unknown _ _ _ _ hn =>
    obtain ⟨g, hg⟩ := Folder.exists_lost ht hmem
    rw [hkey] at hn
    exact absurd hg (hn g)

end Arrange

end Sourcebook
