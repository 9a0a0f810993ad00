-- Where the page of a chapter belongs is never read while a tree is arranged. So the folders come
-- out the same, whether pages had their place before or not.
import Mathlib
import Sourcebook.Proofs.Contents.Brought

namespace Sourcebook

/-- A chapter without the place of its page. -/
def Chapter.loose (c : Chapter) : Chapter := { c with folder := none }

@[simp] theorem Chapter.loose_loose (c : Chapter) : c.loose.loose = c.loose := rfl

@[simp] theorem Chapter.loose_id (c : Chapter) : c.loose.id = c.id := rfl

@[simp] theorem Chapter.loose_title (c : Chapter) : c.loose.title = c.title := rfl

namespace Arrange

/-- The work without the places of pages. -/
def Work.loose (w : Work) : Work := { w with chapters := w.chapters.map Chapter.loose }

/-- The draft without the places of pages. -/
def Draft.loose (d : Draft) : Draft := { d with work := d.work.loose }

variable {path metaName : String} {held : List (String × Item)}

/-! ## Steps of the work

Every step takes equal work, but for the places of pages, to work that is equal in the same way. So
it may forget the places before, when they are forgotten after. -/

@[simp] theorem Work.loose_loose (w : Work) : w.loose.loose = w.loose := by
  simp [Work.loose, Function.comp_def]

@[simp] theorem Draft.loose_loose (d : Draft) : d.loose.loose = d.loose := by
  simp [Draft.loose]

@[simp] theorem Work.loose_stop (w : Work) : w.loose.stop = w.stop := rfl

theorem Work.loose_remark (w : Work) (n : Notice) : (w.remark n).loose = w.loose.remark n := rfl

theorem Work.loose_warns {α : Type} (text : α → String) (l : List α) (w : Work) :
    (l.foldl (fun w a => w.warn (text a)) w).loose = l.foldl (fun w a => w.warn (text a)) w.loose := by
  induction l generalizing w with
  | nil => rfl
  | cons a l ih => exact ih _

theorem Work.loose_update {f : Chapter → Chapter} (hf : ∀ c, (f c).loose = (f c.loose).loose)
    (w : Work) (id : String) : (w.updateChapter id f).loose = (w.loose.updateChapter id f).loose := by
  unfold Work.updateChapter Work.loose
  simp only [List.map_map]
  refine congrArg (fun cs => (⟨cs, _, _⟩ : Work)) (List.map_congr_left fun c _ => ?_)
  by_cases h : c.id = id
  · simp [h, hf c]
  · simp [h]

theorem Work.loose_settle (w : Work) (id : String) : (w.settle path id).loose = w.loose := by
  unfold Work.settle Work.updateChapter Work.loose
  simp only [List.map_map]
  refine congrArg (fun cs => (⟨cs, _, _⟩ : Work)) (List.map_congr_left fun c _ => ?_)
  simp only [Function.comp_apply]
  split_ifs <;> rfl

theorem Work.loose_settles (ids : List String) (w : Work) :
    (ids.foldl (fun w id => w.settle path id) w).loose = w.loose := by
  induction ids generalizing w with
  | nil => rfl
  | cons id ids ih => exact (ih _).trans (w.loose_settle id)

/-! ## Keys -/

theorem Draft.loose_congr (d : Draft) {w w' : Work} (h : w.loose = w'.loose) :
    { d with work := w }.loose = { d with work := w' }.loose :=
  congrArg (fun w => { d with work := w }) h

theorem Draft.loose_rename (d : Draft) (title : String) (item : Item) :
    (d.rename title item).1.loose = (d.loose.rename title item).1.loose := by
  cases item with
  | chapter id =>
    have htitle := Work.loose_update (f := fun c => { c with title := title }) (fun _ => rfl) d.work id
    exact d.loose_congr htitle
  | folder segment => simp [Draft.rename, Draft.loose]
  | page p => simp [Draft.rename, Draft.loose]
  | separator t => simp [Draft.rename, Draft.loose]

/-- What a draft lists more. -/
theorem Draft.loose_list {d d' : Draft} (h : d.loose = d'.loose) (item : Item) (hidden : Bool) :
    (if hidden then d else { d with configured := d.configured ++ [item] }).loose =
      (if hidden then d' else { d' with configured := d'.configured ++ [item] }).loose := by
  cases hidden with
  | true => exact h
  | false => exact congrArg (fun d : Draft => { d with configured := d.configured ++ [item] }) h

theorem Draft.loose_place (d : Draft) (o : Override) (item : Item) :
    (d.place o item).loose = (d.loose.place o item).loose := by
  unfold Draft.place
  cases o.title with
  | none => exact Draft.loose_list d.loose_loose.symm item o.hidden
  | some title =>
    dsimp only
    cases title.isEmpty with
    | true => exact Draft.loose_list d.loose_loose.symm item o.hidden
    | false =>
      have hitem : (d.loose.rename title item).2 = (d.rename title item).2 := by cases item <;> rfl
      simp only [Bool.false_eq_true, if_false, hitem]
      exact Draft.loose_list (d.loose_rename title item) _ o.hidden

theorem Draft.loose_places (o : Override) (items : List Item) (d : Draft) :
    (items.foldl (fun d item => d.place o item) d).loose =
      (items.foldl (fun d item => d.place o item) d.loose).loose := by
  induction items generalizing d with
  | nil => exact d.loose_loose.symm
  | cons item items ih =>
    rw [List.foldl_cons, List.foldl_cons, ih, ih (d.loose.place o item), d.loose_place]

theorem Draft.loose_taken (d : Draft) (id : String) (children : List Folder) :
    (d.taken path id children).loose = (d.loose.taken path id children).loose := by
  have hplace := Work.loose_update (f := fun c => { c with folder := some path }) (fun _ => rfl)
    d.work id
  exact (d.taken path id children).loose_congr hplace

theorem Draft.loose_hoist (d : Draft) (key : String) (o : Override) :
    (d.hoist path metaName key o).loose = (d.loose.hoist path metaName key o).loose := by
  have hsame : detach (hoistKey key).2 (hoistKey key).1 (.mk d.loose.info d.loose.children) =
    detach (hoistKey key).2 (hoistKey key).1 (.mk d.info d.children) := rfl
  unfold Draft.hoist
  dsimp only
  rw [hsame]
  cases detach (hoistKey key).2 (hoistKey key).1 (.mk d.info d.children) with
  | none => simp [Draft.loose, Work.warn, Work.loose_remark]
  | some f =>
    have hplaced : ∀ b : Draft, b.loose = (d.taken path (hoistKey key).2 f.children).loose →
        (b.place o (.chapter (hoistKey key).2)).loose =
          ((d.taken path (hoistKey key).2 f.children).loose.place o (.chapter (hoistKey key).2)).loose :=
      fun b hb => by rw [b.loose_place, hb]
    exact (hplaced _ rfl).trans (hplaced _ (d.loose_taken _ _).symm).symm

theorem Draft.loose_key (d : Draft) (key : String) (o : Override) :
    (d.key path metaName held key o).loose = (d.loose.key path metaName held key o).loose := by
  unfold Draft.key
  split
  · simp [Draft.loose]
  · split
    · simp [Draft.loose]
    · cases (held.filter (·.1 == key)).map (·.2) with
      | nil =>
        dsimp only
        split
        · exact d.loose_hoist key o
        · simp [Draft.loose, Work.loose_remark]
      | cons item items => exact Draft.loose_places o _ { d with used := key :: d.used }

theorem Draft.loose_keys (entries : List (String × Override)) (d : Draft) :
    (d.keys path metaName held entries).loose = (d.loose.keys path metaName held entries).loose := by
  induction entries generalizing d with
  | nil => exact d.loose_loose.symm
  | cons e entries ih =>
    rw [Draft.keys_cons, Draft.keys_cons, ih, ih (d.loose.key ..), d.loose_key]

/-! ## The pass -/

variable {disk : Disk} {file : OverrideFile} {way : List String} {w w' : Work} {info : FolderInfo}
  {children : List Folder}

theorem Draft.loose_start (w : Work) : (Draft.start file path w info children).loose =
    (Draft.start file path w.loose info children).loose := by
  have hwork : ∀ w : Work, (Draft.start file path w info children).work.loose =
      (repeated [] ((available info children).map (·.1))).foldl
        (fun w n => w.warn (repeatedText path n)) (file.warnings.foldl Work.warn w.loose) := by
    intro w
    refine (Work.loose_warns (repeatedText path) _ _).trans ?_
    rw [Work.loose_settles, show (file.warnings.foldl Work.warn w).loose = _ from
      Work.loose_warns (fun text => text) _ _]
  have hsame : (Draft.start file path w info children).work.loose =
      (Draft.start file path w.loose info children).work.loose := by
    rw [hwork, hwork, Work.loose_loose]
  exact (Draft.start file path w info children).loose_congr hsame

/-- The rest is sorted by what is shown. -/
theorem restKey_loose (chapters : List Chapter) (item : Item) :
    restKey children (chapters.map Chapter.loose) item = restKey children chapters item := by
  have hfind : ∀ id, (chapters.map Chapter.loose).find? (·.id == id) =
      (chapters.find? (·.id == id)).map Chapter.loose := fun id => List.find?_map
  cases item with
  | chapter id =>
    simp only [restKey, labelOf, hfind, Option.map_map]
    rfl
  | folder segment => rfl
  | page p => rfl
  | separator t => rfl

theorem restKey_congr {chapters chapters' : List Chapter}
    (h : chapters.map Chapter.loose = chapters'.map Chapter.loose) (item : Item) :
    restKey children chapters item = restKey children chapters' item := by
  rw [← restKey_loose, h, restKey_loose]

theorem Draft.finish_loose {d d' : Draft} (h : d.loose = d'.loose) : d.finish held = d'.finish held := by
  have hfinish : ∀ d : Draft, d.loose.finish held = d.finish held := by
    intro d
    unfold Draft.finish sortRest
    simp only [show d.loose.work.chapters = d.work.chapters.map Chapter.loose from rfl, restKey_loose]
    rfl
  rw [← hfinish, h, hfinish]

theorem arrangeBy_loose (w : Work) :
    (arrangeBy file metaName way w info children).1.loose =
      (arrangeBy file metaName way w.loose info children).1.loose ∧
    (arrangeBy file metaName way w info children).2 =
      (arrangeBy file metaName way w.loose info children).2 := by
  have hdone : (Draft.done file metaName (Tree.pathText way) w info children).loose =
      (Draft.done file metaName (Tree.pathText way) w.loose info children).loose := by
    unfold Draft.done
    rw [Draft.loose_keys, Draft.loose_start, ← Draft.loose_keys]
  have hfolder : ∀ d : Draft, Folder.mk { d.info with items := d.finish (available info children) }
      d.children = .mk { d.loose.info with items := d.loose.finish (available info children) }
        d.loose.children := by
    intro d
    rw [Draft.finish_loose d.loose_loose]
    rfl
  rw [arrangeBy_eq, arrangeBy_eq]
  refine ⟨congrArg Draft.work hdone, ?_⟩
  dsimp only
  rw [hfolder, hdone, ← hfolder]

theorem arrangeHere_loose (w : Work) :
    (arrangeHere disk metaName way w info children).1.loose =
      (arrangeHere disk metaName way w.loose info children).1.loose ∧
    (arrangeHere disk metaName way w info children).2 =
      (arrangeHere disk metaName way w.loose info children).2 := by
  unfold arrangeHere
  rw [Work.loose_stop]
  cases w.stop with
  | some t => exact ⟨w.loose_loose.symm, rfl⟩
  | none =>
    cases OverrideFile.read disk (info.source.join (Path.ofString metaName)) with
    | error t => exact ⟨congrArg (fun w : Work => { w with stop := some t }) w.loose_loose.symm, rfl⟩
    | ok file => exact arrangeBy_loose w

theorem arrangeAll_loose {cs : List Folder}
    (hone : ∀ c ∈ cs, ∀ v w, (arrange disk metaName v w c).1.loose =
        (arrange disk metaName v w.loose c).1.loose ∧
      (arrange disk metaName v w c).2 = (arrange disk metaName v w.loose c).2) (w : Work) :
    (arrangeAll disk metaName way w cs).1.loose = (arrangeAll disk metaName way w.loose cs).1.loose ∧
      (arrangeAll disk metaName way w cs).2 = (arrangeAll disk metaName way w.loose cs).2 := by
  induction cs generalizing w with
  | nil => exact ⟨by simp [arrangeAll], by simp [arrangeAll]⟩
  | cons c cs ih =>
    have ih := ih fun d hd => hone d (List.mem_cons_of_mem _ hd)
    obtain ⟨hwork, hfolder⟩ := hone c List.mem_cons_self (way ++ [c.segment]) w
    obtain ⟨hrest, hfolders⟩ := ih (arrange disk metaName (way ++ [c.segment]) w c).1
    obtain ⟨hrest', hfolders'⟩ := ih (arrange disk metaName (way ++ [c.segment]) w.loose c).1
    rw [arrangeAll_cons, arrangeAll_cons]
    dsimp only
    rw [hrest, hfolders, hrest', hfolders', hwork, hfolder]
    exact ⟨rfl, rfl⟩

/-- Folders are arranged in the same way, wherever the pages of chapters belong. -/
theorem arrange_loose (f : Folder) (w : Work) :
    (arrange disk metaName way w f).1.loose = (arrange disk metaName way w.loose f).1.loose ∧
      (arrange disk metaName way w f).2 = (arrange disk metaName way w.loose f).2 := by
  induction f generalizing way w with
  | mk info children ih =>
    obtain ⟨hwork, hfolders⟩ := @arrangeAll_loose metaName disk way children
      (fun c hc v w => ih c hc w) w
    rw [arrange_mk, arrange_mk, ← hfolders, (arrangeHere_loose _).1, (arrangeHere_loose _).2, hwork,
      ← (arrangeHere_loose _).1, ← (arrangeHere_loose _).2]
    exact ⟨rfl, rfl⟩

end Arrange

namespace Tree

/-- An addition without the place of a page. -/
def Addition.loose : Addition → Addition
  | .chapter c path => .chapter c.loose path
  | a => a

variable {source : Path} {metaName : String} {additions : List Addition} {disk : Disk}

theorem filterMap_chapter?_loose (additions : List Addition) :
    (additions.map Addition.loose).filterMap Addition.chapter? =
      (additions.filterMap Addition.chapter?).map Chapter.loose := by
  rw [List.filterMap_map, List.map_filterMap]
  refine List.filterMap_congr fun a _ => ?_
  cases a <;> rfl

theorem filterMap_page?_loose (additions : List Addition) :
    (additions.map Addition.loose).filterMap Addition.page? = additions.filterMap Addition.page? := by
  rw [List.filterMap_map]
  refine List.filterMap_congr fun a _ => ?_
  cases a <;> rfl

theorem chapterIds_loose (additions : List Addition) :
    chapterIds (additions.map Addition.loose) = chapterIds additions := by
  rw [chapterIds, filterMap_chapter?_loose, List.map_map]
  rfl

/-- What additions are like: every chapter comes once, and the names of chapters and pages have no
slash. -/
structure Named (additions : List Addition) : Prop where
  once : (chapterIds additions).Nodup
  chapters : ∀ id ∈ chapterIds additions, '/' ∉ id.toList
  pages : ∀ p ∈ additions.filterMap Addition.page?, '/' ∉ p.id.toList

theorem Proper.named (h : Proper additions) : Named additions := ⟨h.once, h.chapters, h.pages⟩

theorem Named.proper (h : Named additions) : Proper (additions.map Addition.loose) where
  once := chapterIds_loose additions ▸ h.once
  chapters := chapterIds_loose additions ▸ h.chapters
  pages := filterMap_page?_loose additions ▸ h.pages
  unplaced := by
    intro c hc
    rw [filterMap_chapter?_loose] at hc
    obtain ⟨d, -, rfl⟩ := List.mem_map.mp hc
    rfl

/-! ## The tree -/

/-- The same folders are made. -/
theorem made_loose_root : (made source metaName (additions.map Addition.loose)).root =
    (made source metaName additions).root := by
  induction additions using List.reverseRecOn with
  | nil => rfl
  | append_singleton as a ih =>
    rw [List.map_append, List.map_singleton, made_snoc, made_snoc, add_root, add_root, ih]
    cases a <;> rfl

/-- The tree is arranged in the same way. -/
theorem pass_loose (h : (chapterIds additions).Nodup) :
    (pass source metaName (additions.map Addition.loose) disk).1.chapters.map Chapter.loose =
        (pass source metaName additions disk).1.chapters.map Chapter.loose ∧
      (pass source metaName (additions.map Addition.loose) disk).2 =
        (pass source metaName additions disk).2 := by
  have hchapters : (made source metaName (additions.map Addition.loose)).chapters =
      (made source metaName additions).chapters.map Chapter.loose := by
    rw [made_chapters h, made_chapters (chapterIds_loose additions ▸ h), filterMap_chapter?_loose]
  obtain ⟨hwork, hroot⟩ := @Arrange.arrange_loose metaName disk []
    (made source metaName additions).root ⟨(made source metaName additions).chapters, [], none⟩
  unfold pass
  dsimp only
  rw [hchapters, made_loose_root]
  exact ⟨(congrArg Arrange.Work.chapters hwork).symm, hroot.symm⟩

/-! ## What keys bring -/

variable {rules : Rules} {spot : List String}

theorem residents_loose : residents rules (additions.map Addition.loose) spot =
    (residents rules additions spot).map fun c => (c.1.loose, c.2) := by
  unfold residents
  rw [List.filterMap_map, List.map_filterMap]
  refine List.filterMap_congr fun a _ => ?_
  cases a with
  | chapter c path =>
    by_cases h : (Stay.last rules c.id (segments path) c.title).way = spot
    · simp [Addition.loose, resident?, h]
    · simp [Addition.loose, resident?, h]
  | page p path => rfl
  | mount path dir => rfl

theorem pagesAt_loose : pagesAt (additions.map Addition.loose) spot = pagesAt additions spot := by
  unfold pagesAt
  rw [List.filterMap_map]
  refine List.filterMap_congr fun a _ => ?_
  cases a <;> rfl

theorem filled_loose (segment : String) :
    filled rules (additions.map Addition.loose) spot segment = filled rules additions spot segment := by
  unfold filled
  rw [List.any_map]
  refine congrArg (List.any additions) (funext fun a => ?_)
  cases a <;> rfl

theorem listed_loose :
    listed rules (additions.map Addition.loose) spot = listed rules additions spot := by
  funext e
  unfold listed brought
  rw [residents_loose, pagesAt_loose, filled_loose, List.filter_map, List.map_map]
  rfl

theorem remaining_loose (segments : List String) :
    remaining rules (additions.map Addition.loose) spot segments =
      remaining rules additions spot segments := by
  unfold remaining
  simp only [residents_loose, pagesAt_loose, filled_loose, List.filter_map, List.map_map]
  rfl

end Tree

end Sourcebook
