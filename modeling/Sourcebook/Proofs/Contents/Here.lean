-- What arranging one folder does to a chapter: in the folder itself the key that is its
-- identifier counts, and further down the key that is its address.
import Mathlib
import Sourcebook.Proofs.Contents.Keys
import Sourcebook.Proofs.Contents.Stay

namespace Sourcebook

open Folder (Lost Every Tidy Fades Steady)

namespace Folder

/-- No chapter and no page of a folder has a slash in its name. -/
def Plain (f : Folder) : Prop :=
  (∀ id ∈ f.info.chapters, '/' ∉ id.toList) ∧ ∀ p ∈ f.info.pages, '/' ∉ p.id.toList

end Folder

namespace Arrange

variable {path metaName id : String} {held : List (String × Item)} {entries : List (String × Override)}
  {d : Draft}

/-! ## One chapter and all keys -/

theorem Draft.sight_keys_of_not_concerns
    (h : ∀ e ∈ entries, ¬ Concerns held (d.sight id).homes id e.1 e.2) :
    (d.keys path metaName held entries).sight id = d.sight id := by
  induction entries generalizing d with
  | nil => rfl
  | cons e entries ih =>
    have hkey : (d.key path metaName held e.1 e.2).sight id = d.sight id :=
      Draft.sight_key_of_not_concerns (h e List.mem_cons_self)
    refine (ih fun b hb => ?_).trans hkey
    rw [hkey]
    exact h b (List.mem_cons_of_mem _ hb)

/-- When one name only can concern a chapter, before and after, the key of that name decides. -/
theorem Draft.sight_keys_at {name : String} {o : Override} {s : Sight}
    (hn : (entries.map (·.1)).Nodup) (ho : Override.about entries name = some o)
    (ht : (Folder.mk d.info d.children).Tidy)
    (hbefore : ∀ key o', key ≠ name → ¬ Concerns held (d.sight id).homes id key o')
    (hstep : ∀ e : Draft, e.sight id = d.sight id → (Folder.mk e.info e.children).Tidy →
      (e.key path metaName held name o).sight id = s)
    (hafter : ∀ key o', key ≠ name → ¬ Concerns held s.homes id key o') :
    (d.keys path metaName held entries).sight id = s := by
  obtain ⟨hmem, -⟩ := Override.about_eq_some ho
  obtain ⟨before, after, rfl⟩ := List.append_of_mem hmem
  rw [List.map_append, List.map_cons] at hn
  have hother : ∀ e, e ∈ before ∨ e ∈ after → e.1 ≠ name := by
    intro e he hname
    have hperm := List.perm_middle.nodup_iff.mp hn
    rw [List.nodup_cons, ← List.map_append] at hperm
    exact hperm.1 (List.mem_map.mpr ⟨e, List.mem_append.mpr he, hname⟩)
  have hfirst : (d.keys path metaName held before).sight id = d.sight id :=
    Draft.sight_keys_of_not_concerns fun e he => hbefore _ _ (hother e (Or.inl he))
  have htidy : (Folder.mk d.info (d.keys path metaName held before).children).Tidy :=
    (lasting_tidy d.info).keys ht
  have hkey := hstep _ hfirst (htidy.change_info _)
  unfold Draft.keys at hkey ⊢
  rw [List.foldl_append, List.foldl_cons]
  refine (Draft.sight_keys_of_not_concerns fun e he => ?_).trans hkey
  rw [hkey]
  exact hafter _ _ (hother e (Or.inr he))

/-- When a file says nothing about the one name that can concern a chapter, nothing happens. -/
theorem Draft.sight_keys_missing {name : String} (hnone : Override.about entries name = none)
    (hother : ∀ key o, key ≠ name → ¬ Concerns held (d.sight id).homes id key o) :
    (d.keys path metaName held entries).sight id = d.sight id := by
  refine Draft.sight_keys_of_not_concerns ?_
  rintro ⟨key, o⟩ he hc
  by_cases hk : key = name
  · subst hk
    have ha : Override.applies key o = true := hc.1
    rw [Override.about_eq_none.mp hnone o he] at ha
    cases ha
  · exact hother key o hk hc

/-- A chapter that the folder holds itself follows the key that is its identifier. -/
theorem Draft.sight_keys_here (hn : (entries.map (·.1)).Nodup)
    (ht : (Folder.mk d.info d.children).Tidy) (hhomes : (d.sight id).homes = [[]])
    (hheld : (named held id).count (.chapter id) = 1)
    (honly : ∀ key, (key, .chapter id) ∈ held → key = id) :
    (d.keys path metaName held entries).sight id =
      match Override.about entries id with
      | some o => (d.sight id).named o
      | none => d.sight id := by
  have hother : ∀ key o', key ≠ id → ¬ Concerns held [[]] id key o' := by
    rintro key o' hne ⟨-, hmem | ⟨way, hway, hw, -⟩⟩
    · exact hne (honly key hmem)
    · exact hw (List.mem_singleton.mp hway)
  split
  · next o ho =>
    refine Draft.sight_keys_at hn ho ht (hhomes ▸ hother) ?_ (hhomes ▸ hother)
    intro e he _
    rw [Draft.sight_key_own (Override.about_eq_some ho).2 hheld, he]
  · next hnone => exact Draft.sight_keys_missing hnone (hhomes ▸ hother)

/-- A chapter that stands further down follows the key that is its address. -/
theorem Draft.sight_keys_inside {way : List String} (hn : (entries.map (·.1)).Nodup)
    (ht : (Folder.mk d.info d.children).Tidy) (hw : way ≠ []) (hid : '/' ∉ id.toList)
    (hhomes : (d.sight id).homes = [way]) (hlistings : ∀ v ∈ (d.sight id).listings, v = way)
    (hheld : ∀ key ∈ held.map (·.1), '/' ∉ key.toList)
    (hnot : ∀ key, (key, .chapter id) ∉ held) :
    (d.keys path metaName held entries).sight id =
      match Override.about entries (address way id) with
      | some o =>
        Sight.named ⟨[[]], [], (d.sight id).chapter.map fun c => { c with folder := some path }⟩ o
      | none => d.sight id := by
  have hother : ∀ homes : List (List String), (∀ v ∈ homes, v ≠ [] → v = way) →
      ∀ key o', key ≠ address way id → ¬ Concerns held homes id key o' := by
    rintro homes hall key o' hne ⟨-, hmem | ⟨v, hv, hv', rfl⟩⟩
    · exact hnot key hmem
    · exact hne (by rw [hall v hv hv'])
  have hbefore := hother [way] (by simp)
  split
  · next o ho =>
    refine Draft.sight_keys_at hn ho ht (hhomes ▸ hbefore) ?_ (hother _ (by simp [Sight.named]))
    intro e he hte
    rw [← he] at hhomes hlistings ⊢
    exact Draft.sight_key_address hte hw hid (Override.about_eq_some ho).2
      (fun hk => hheld _ hk (slash_mem_address way id)) hhomes hlistings
  · next hnone => exact Draft.sight_keys_missing hnone (hhomes ▸ hbefore)

/-! ## What a folder holds -/

theorem mem_available {info : FolderInfo} {children : List Folder} {h : String × Item} :
    h ∈ available info children ↔
      (∃ c ∈ children, c.isEmpty = false ∧ h = (c.segment, .folder c.segment)) ∨
      (∃ id ∈ info.chapters, h = (id, .chapter id)) ∨ ∃ p ∈ info.pages, h = (p.id, .page p) := by
  simp only [available, List.mem_append, List.mem_map, List.mem_filter, Bool.not_eq_true', and_assoc,
    eq_comm (b := h), or_assoc]

theorem countP_available (q : String × Item → Bool) (info : FolderInfo) (children : List Folder) :
    (available info children).countP q =
      (children.filter (!·.isEmpty)).countP (fun c => q (c.segment, .folder c.segment)) +
        info.chapters.countP (fun id => q (id, .chapter id)) +
        info.pages.countP fun p => q (p.id, .page p) := by
  simp [available, Function.comp_def, Nat.add_assoc]

theorem mem_available_chapter {info : FolderInfo} {children : List Folder} {key id : String} :
    (key, .chapter id) ∈ available info children ↔ key = id ∧ id ∈ info.chapters := by
  rw [mem_available]
  constructor
  · rintro (⟨c, -, -, h⟩ | ⟨i, hi, h⟩ | ⟨p, -, h⟩) <;> cases h
    exact ⟨rfl, hi⟩
  · rintro ⟨rfl, h⟩
    exact Or.inr (Or.inl ⟨_, h, rfl⟩)

/-- The chapter is held under its identifier, as often as the folder has it. -/
theorem countP_available_chapter (info : FolderInfo) (children : List Folder) (id : String)
    (b : String → Bool) :
    (available info children).countP (fun h => h.2 == .chapter id && b h.1) =
      if b id then info.chapters.count id else 0 := by
  rw [countP_available]
  have hpages : info.pages.countP (fun p => (Item.page p == .chapter id && b p.id)) = 0 := by
    simp
  have hfolders : (children.filter (!·.isEmpty)).countP
      (fun c => (Item.folder c.segment == .chapter id && b c.segment)) = 0 := by
    simp
  rw [hpages, hfolders, Nat.zero_add, Nat.add_zero]
  split
  · next hb =>
    refine List.countP_congr fun other _ => ?_
    by_cases ho : other = id
    · simp [ho, hb]
    · simp [ho]
  · next hb =>
    rw [List.countP_eq_zero]
    intro other _
    by_cases ho : other = id
    · simp [ho, hb]
    · simp [ho]

theorem count_named (info : FolderInfo) (children : List Folder) (id : String) :
    (named (available info children) id).count (.chapter id) = info.chapters.count id := by
  unfold named
  rw [List.count, List.countP_map, List.countP_filter]
  have h := countP_available_chapter info children id (· == id)
  simpa [Function.comp_def] using h

/-- What a folder holds has names without a slash. -/
theorem available_names {info : FolderInfo} {children : List Folder}
    (ht : (Folder.mk info children).Tidy) (hp : (Folder.mk info children).Plain) :
    ∀ key ∈ (available info children).map (·.1), '/' ∉ key.toList := by
  intro key hkey
  obtain ⟨h, hmem, rfl⟩ := List.mem_map.mp hkey
  rcases mem_available.mp hmem with ⟨c, hc, -, rfl⟩ | ⟨id, hid, rfl⟩ | ⟨p, hp', rfl⟩
  · exact (ht.name hc).2
  · exact hp.1 id hid
  · exact hp.2 p hp'

/-! ## The work before the keys -/

theorem Work.warns_chapters {α : Type} (text : α → String) (l : List α) (w : Work) :
    (l.foldl (fun w a => w.warn (text a)) w).chapters = w.chapters := by
  induction l generalizing w with
  | nil => rfl
  | cons a l ih => exact ih _

theorem Work.warns_stop {α : Type} (text : α → String) (l : List α) (w : Work) :
    (l.foldl (fun w a => w.warn (text a)) w).stop = w.stop := by
  induction l generalizing w with
  | nil => rfl
  | cons a l ih => exact ih _

theorem Work.settles_stop (path : String) (ids : List String) (w : Work) :
    (ids.foldl (fun w id => w.settle path id) w).stop = w.stop := by
  induction ids generalizing w with
  | nil => rfl
  | cons a ids ih => exact ih _

theorem Work.settles_other {path id : String} {ids : List String} {w : Work} (h : id ∉ ids) :
    (ids.foldl (fun w id => w.settle path id) w).chapter? id = w.chapter? id := by
  induction ids generalizing w with
  | nil => rfl
  | cons a ids ih =>
    rw [List.mem_cons, not_or] at h
    rw [List.foldl_cons, ih h.2, settle, chapter?_update_other (by intro c; split <;> rfl) h.1]

/-- A chapter without a folder gets the folder that holds it. -/
theorem Work.settles_self {path id : String} {ids : List String} {w : Work} {c : Chapter}
    (h : ids.count id = 1) (hc : w.chapter? id = some c) (hf : c.folder = none) :
    (ids.foldl (fun w id => w.settle path id) w).chapter? id = some { c with folder := some path } := by
  have hmem : id ∈ ids := List.count_pos_iff.mp (by rw [h]; exact Nat.one_pos)
  obtain ⟨before, after, rfl⟩ := List.append_of_mem hmem
  rw [List.count_append, List.count_cons_self] at h
  have hb : id ∉ before := List.count_eq_zero.mp (by omega)
  have ha : id ∉ after := List.count_eq_zero.mp (by omega)
  rw [List.foldl_append, List.foldl_cons, settles_other ha, settle,
    chapter?_update (by intro c; split <;> rfl), settles_other hb, hc]
  simp [hf]

/-! ## One folder -/

/-- The draft before the first key. -/
def Draft.start (file : OverrideFile) (path : String) (w : Work) (info : FolderInfo)
    (children : List Folder) : Draft :=
  let w := file.warnings.foldl Work.warn w
  let w := info.chapters.foldl (fun w id => w.settle path id) w
  let names := repeated [] ((available info children).map (·.1))
  ⟨names.foldl (fun w n => w.warn (repeatedText path n)) w, info, children, [], [], none⟩

/-- The draft after the last key. -/
def Draft.done (file : OverrideFile) (metaName path : String) (w : Work) (info : FolderInfo)
    (children : List Folder) : Draft :=
  (Draft.start file path w info children).keys path metaName (available info children) file.entries

theorem arrangeBy_eq (file : OverrideFile) (metaName : String) (way : List String) (w : Work)
    (info : FolderInfo) (children : List Folder) :
    arrangeBy file metaName way w info children =
      let d := Draft.done file metaName (Tree.pathText way) w info children
      (d.work, .mk { d.info with items := d.finish (available info children) } d.children) := rfl

variable {file : OverrideFile} {way : List String} {w : Work} {info : FolderInfo}
  {children : List Folder}

theorem start_chapter?_other (h : id ∉ info.chapters) :
    (Draft.start file path w info children).work.chapter? id = w.chapter? id := by
  unfold Draft.start Work.chapter?
  dsimp only
  rw [Work.warns_chapters]
  refine (Work.settles_other h).trans ?_
  unfold Work.chapter?
  rw [Work.warns_chapters fun text => text]

theorem start_chapter?_self {c : Chapter} (h : info.chapters.count id = 1)
    (hc : w.chapter? id = some c) (hf : c.folder = none) :
    (Draft.start file path w info children).work.chapter? id = some { c with folder := some path } := by
  unfold Draft.start Work.chapter?
  dsimp only
  rw [Work.warns_chapters]
  refine Work.settles_self h ?_ hf
  unfold Work.chapter?
  rw [Work.warns_chapters fun text => text]
  exact hc

theorem start_sight : (Draft.start file path w info children).sight id =
    ⟨(Folder.mk info children).homes id, Folder.listingsOf id children,
      (Draft.start file path w info children).work.chapter? id⟩ := by
  simp [Draft.start, Draft.sight, Draft.shown, Folder.homes, Folder.listings, Folder.sites_mk,
    Folder.listingsOf]

/-- Where a chapter stands and is listed after a folder was arranged: the list of the folder has
what the keys listed, and the chapter if it is held and no key took its name. -/
theorem arrangeBy_sight (info : FolderInfo) (children : List Folder) (d : Draft) (id : String) :
    (d.sight id).homes =
      (Folder.mk { d.info with items := d.finish (available info children) } d.children).homes id ∧
    (Folder.mk { d.info with items := d.finish (available info children) } d.children).listings id =
      List.replicate (if d.used.contains id then 0 else info.chapters.count id) [] ++
        (d.sight id).listings := by
  constructor
  · simp [Draft.sight, Draft.shown, Folder.homes, Folder.sites_mk]
  · have hcount : (d.finish (available info children)).countP (· == .chapter id) = _ :=
      Draft.countP_finish (by intro item h; rw [beq_iff_eq.mp h]; rfl)
    have hheld := countP_available_chapter info children id fun name => !d.used.contains name
    rw [hheld] at hcount
    simp only [Draft.sight, Draft.shown, Folder.listings, Folder.sites_mk, List.count, hcount]
    rw [Nat.add_comm, List.replicate_add, List.append_assoc]
    cases d.used.contains id <;> rfl

/-- A chapter stands at one place, and is listed there unless it is hidden. Its page belongs
there, and its title is known. -/
structure Stands (homes listings : List (List String)) (w : Work) (here : List String)
    (c : Chapter) (s : Stay) : Prop where
  homes : homes = [s.way]
  listings : listings = if s.hidden then [] else [s.way]
  chapter : w.chapter? c.id = some { c with folder := some (Tree.pathText (here ++ s.way)), title := s.title }

/-- A chapter of the folder itself follows its identifier. -/
theorem arrangeBy_here {c : Chapter} {rules : Rules} (hrules : rules [] = file.entries)
    (hn : (file.entries.map (·.1)).Nodup) (ht : (Folder.mk info children).Tidy)
    (hhomes : (Folder.mk info children).homes c.id = [[]])
    (hlistings : Folder.listingsOf c.id children = [])
    (hc : w.chapter? c.id = some c) (hf : c.folder = none) :
    let r := arrangeBy file metaName way w info children
    Stands (r.2.homes c.id) (r.2.listings c.id) r.1 way c (Stay.first rules c.id [] c.title) := by
  intro r
  obtain ⟨hcount, -⟩ := Folder.sites_eq_here.mp hhomes
  set d := Draft.done file metaName (Tree.pathText way) w info children with hd
  obtain ⟨hstands, hlists⟩ := arrangeBy_sight info children d c.id
  have hsight : d.sight c.id = _ := Draft.sight_keys_here hn ht (by rw [start_sight]; exact hhomes)
    ((count_named info children c.id).trans hcount) fun key hk => (mem_available_chapter.mp hk).1
  have hheld : c.id ∈ (available info children).map (·.1) := by
    have hmem : c.id ∈ info.chapters := List.count_pos_iff.mp (by rw [hcount]; exact Nat.one_pos)
    exact List.mem_map.mpr ⟨_, mem_available_chapter.mpr ⟨rfl, hmem⟩, rfl⟩
  have hused : d.used.contains c.id = (Override.about file.entries c.id).isSome := by
    rw [Bool.eq_iff_iff, List.contains_iff_mem]
    exact Draft.mem_used_keys.trans (by simp [Draft.start, hheld])
  have hstart : (Draft.start file (Tree.pathText way) w info children).sight c.id =
      ⟨[[]], [], some { c with folder := some (Tree.pathText way) }⟩ := by
    rw [start_sight, hhomes, hlistings, start_chapter?_self hcount hc hf]
  rw [hstart] at hsight
  rw [show r = _ from arrangeBy_eq ..]
  unfold Stay.first
  rw [hrules]
  cases ho : Override.about file.entries c.id with
  | none =>
    rw [ho] at hsight hused
    have hchapter : d.work.chapter? c.id = _ := congrArg Sight.chapter hsight
    refine ⟨hstands.symm.trans (by rw [hsight]), hlists.trans ?_, ?_⟩
    · rw [hused, hcount, hsight]
      rfl
    · simpa using hchapter
  | some o =>
    rw [ho] at hsight hused
    have hchapter : d.work.chapter? c.id = _ := congrArg Sight.chapter hsight
    refine ⟨hstands.symm.trans (by rw [hsight]; rfl), hlists.trans ?_, ?_⟩
    · rw [hused, hsight]
      rfl
    · simpa [Sight.named] using hchapter

/-- A chapter that stands further down follows its address. -/
theorem arrangeBy_inside {c : Chapter} {rules : Rules} {s : Stay} (hrules : rules [] = file.entries)
    (hn : (file.entries.map (·.1)).Nodup) (ht : (Folder.mk info children).Tidy)
    (hp : (Folder.mk info children).Plain) (hid : '/' ∉ c.id.toList) (hw : s.way ≠ [])
    (hs : Stands ((Folder.mk info children).homes c.id) (Folder.listingsOf c.id children) w way c s) :
    let r := arrangeBy file metaName way w info children
    Stands (r.2.homes c.id) (r.2.listings c.id) r.1 way c (Stay.rise rules c.id s []) := by
  intro r
  obtain ⟨hhomes, hlistings, hc⟩ := hs
  have hnot : c.id ∉ info.chapters := by
    obtain ⟨segment, rest, he⟩ := List.exists_cons_of_ne_nil hw
    rw [he] at hhomes
    exact List.count_eq_zero.mp (Folder.sites_eq_inside.mp hhomes).1
  set d := Draft.done file metaName (Tree.pathText way) w info children with hd
  obtain ⟨hstands, hlists⟩ := arrangeBy_sight info children d c.id
  rw [List.count_eq_zero.mpr hnot, ite_self, List.replicate_zero, List.nil_append] at hlists
  have hstart : (Draft.start file (Tree.pathText way) w info children).sight c.id =
      ⟨[s.way], if s.hidden then [] else [s.way],
        some { c with folder := some (Tree.pathText (way ++ s.way)), title := s.title }⟩ := by
    rw [start_sight, hhomes, hlistings, start_chapter?_other hnot, hc]
  have hsight : d.sight c.id = _ := Draft.sight_keys_inside hn ht hw hid
    (by rw [hstart]) (by rw [hstart]; dsimp only; split <;> simp) (available_names ht hp)
    fun key hk => hnot (mem_available_chapter.mp hk).2
  rw [hstart] at hsight
  rw [show r = _ from arrangeBy_eq ..]
  unfold Stay.rise
  rw [hrules, List.length_nil, List.drop_zero]
  cases ho : Override.about file.entries (address s.way c.id) with
  | none =>
    rw [ho] at hsight
    exact ⟨hstands.symm.trans (by rw [hsight]), hlists.trans (by rw [hsight]),
      congrArg Sight.chapter hsight⟩
  | some o =>
    rw [ho] at hsight
    have hchapter : d.work.chapter? c.id = _ := congrArg Sight.chapter hsight
    refine ⟨hstands.symm.trans (by rw [hsight]; rfl), hlists.trans (by rw [hsight]; rfl), ?_⟩
    simpa [Sight.named] using hchapter

/-- A chapter that stands nowhere in the folder is not touched. -/
theorem arrangeBy_nowhere (file : OverrideFile) (metaName : String) (way : List String) (w : Work)
    (hhomes : (Folder.mk info children).homes id = [])
    (hlistings : Folder.listingsOf id children = []) :
    (arrangeBy file metaName way w info children).2.homes id = [] ∧
    (arrangeBy file metaName way w info children).2.listings id = [] ∧
    (arrangeBy file metaName way w info children).1.chapter? id = w.chapter? id := by
  have hnot : id ∉ info.chapters := List.count_eq_zero.mp (Folder.sites_eq_nil.mp hhomes).1
  set d := Draft.done file metaName (Tree.pathText way) w info children with hd
  obtain ⟨hstands, hlists⟩ := arrangeBy_sight info children d id
  have hstart : (Draft.start file (Tree.pathText way) w info children).sight id =
      ⟨[], [], w.chapter? id⟩ := by
    rw [start_sight, hhomes, hlistings, start_chapter?_other hnot]
  have hsight : d.sight id = _ := Draft.sight_keys_of_not_concerns (by
    rintro e - ⟨-, hmem | ⟨v, hv, -⟩⟩
    · exact hnot (mem_available_chapter.mp hmem).2
    · rw [hstart] at hv
      cases hv)
  rw [hstart] at hsight
  rw [List.count_eq_zero.mpr hnot, ite_self, List.replicate_zero, List.nil_append] at hlists
  rw [arrangeBy_eq]
  exact ⟨hstands.symm.trans (by rw [hsight]), hlists.trans (by rw [hsight]),
    congrArg Sight.chapter hsight⟩

end Arrange

end Sourcebook
