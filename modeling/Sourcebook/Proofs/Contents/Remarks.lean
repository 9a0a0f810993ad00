-- What is remarked while a tree is arranged is what the turn of each folder remarks, folders
-- inside first. A turn remarks on the override file, on names that come again, and on keys
-- that name nothing.
import Mathlib
import Sourcebook.Proofs.Contents.Arranged

namespace Sourcebook

namespace Arrange

variable {d : Draft} {w : Work} {disk : Disk} {path metaName key : String} {way : List String}
  {held : List (String × Item)} {info : FolderInfo} {children : List Folder}

/-! ## One key -/

/-- What is remarked on a key: that nothing here has that name, or no chapter further down. -/
def Draft.remarksOn (d : Draft) (path metaName : String) (held : List (String × Item)) (key : String)
    (o : Override) : List Notice :=
  if Override.isRest key || Override.separates key o || held.any (·.1 == key) then []
  else if key.toList.contains '/' then
    match detach (hoistKey key).2 (hoistKey key).1 (.mk d.info d.children) with
    | some _ => []
    | none =>
      [.warning (d.info.source.text ++ "/" ++ metaName ++ ": cannot hoist '" ++ key
        ++ "', no such chapter")]
  else [.detail ("No item '" ++ key ++ "' under '" ++ shownPath path ++ "'")]

theorem Draft.place_notices (o : Override) (item : Item) :
    (d.place o item).work.notices = d.work.notices := by
  obtain ⟨e, he, hplace⟩ := d.place_cases o item
  have hnotices : e.1.work.notices = d.work.notices := by
    rcases he with rfl | ⟨title, rfl⟩
    · rfl
    · cases item <;> rfl
  rw [hplace]
  split <;> exact hnotices

theorem Draft.places_notices (o : Override) (items : List Item) (d : Draft) :
    (items.foldl (fun d item => d.place o item) d).work.notices = d.work.notices := by
  induction items generalizing d with
  | nil => rfl
  | cons item items ih => rw [List.foldl_cons, ih, Draft.place_notices]

theorem Draft.key_notices (o : Override) :
    (d.key path metaName held key o).work.notices =
      d.work.notices ++ d.remarksOn path metaName held key o := by
  unfold Draft.key Draft.remarksOn
  by_cases hrest : Override.isRest key = true
  · simp [hrest]
  · by_cases hsep : Override.separates key o = true
    · simp [hrest, hsep]
    · simp only [hrest, hsep, Bool.false_eq_true, if_false, Bool.or_self, Bool.false_or]
      split
      · next hnone =>
        have hany : held.any (·.1 == key) = false := by
          rw [List.map_eq_nil_iff, List.filter_eq_nil_iff] at hnone
          simpa using hnone
        rw [hany]
        by_cases hslash : key.toList.contains '/' = true
        · simp only [hslash, if_true, Bool.false_eq_true, if_false, Draft.hoist]
          split
          · next hd =>
            rw [hd]
            rfl
          · next f hd =>
            rw [hd, Draft.place_notices]
            exact (List.append_nil _).symm
        · simp only [hslash, Bool.false_eq_true, if_false]
          rfl
      · next hsome =>
        have hany : held.any (·.1 == key) = true := by
          obtain ⟨h, hmem⟩ := List.exists_mem_of_ne_nil _ fun hnil =>
            hsome (List.map_eq_nil_iff.mpr hnil)
          obtain ⟨hh, hkey⟩ := List.mem_filter.mp hmem
          exact List.any_eq_true.mpr ⟨h, hh, hkey⟩
        rw [hany, Draft.places_notices]
        simp

/-- What is remarked on keys, one after the other. -/
def Draft.remarks (path metaName : String) (held : List (String × Item)) (d : Draft) :
    List (String × Override) → List Notice
  | [] => []
  | e :: rest =>
    d.remarksOn path metaName held e.1 e.2
      ++ (d.key path metaName held e.1 e.2).remarks path metaName held rest

theorem Draft.keys_notices (entries : List (String × Override)) (d : Draft) :
    (d.keys path metaName held entries).work.notices =
      d.work.notices ++ d.remarks path metaName held entries := by
  induction entries generalizing d with
  | nil => exact (List.append_nil _).symm
  | cons e rest ih =>
    calc ((d.key path metaName held e.1 e.2).keys path metaName held rest).work.notices
        = (d.key path metaName held e.1 e.2).work.notices
            ++ (d.key path metaName held e.1 e.2).remarks path metaName held rest := ih _
      _ = d.work.notices ++ d.remarks path metaName held (e :: rest) := by
        rw [Draft.key_notices, List.append_assoc, Draft.remarks]

/-! ## One folder -/

theorem Work.warns_notices {α : Type} (text : α → String) (l : List α) (w : Work) :
    (l.foldl (fun w a => w.warn (text a)) w).notices =
      w.notices ++ l.map fun a => Notice.warning (text a) := by
  induction l generalizing w with
  | nil => exact (List.append_nil _).symm
  | cons a l ih =>
    rw [List.foldl_cons, ih]
    simp [Work.warn, Work.remark]

theorem Work.settles_notices (ids : List String) (w : Work) :
    (ids.foldl (fun w id => w.settle path id) w).notices = w.notices := by
  induction ids generalizing w with
  | nil => rfl
  | cons id ids ih => exact ih (w.settle path id)

/-- What is remarked in the turn of a folder, by its override file. -/
def remarksBy (file : OverrideFile) (metaName : String) (way : List String) (w : Work)
    (info : FolderInfo) (children : List Folder) : List Notice :=
  let held := available info children
  file.warnings.map .warning
    ++ (repeated [] (held.map (·.1))).map (fun n => .warning (repeatedText (Tree.pathText way) n))
    ++ (Draft.start file (Tree.pathText way) w info children).remarks (Tree.pathText way) metaName
        held file.entries

theorem arrangeBy_notices (file : OverrideFile) :
    (arrangeBy file metaName way w info children).1.notices =
      w.notices ++ remarksBy file metaName way w info children := by
  have hfile : (file.warnings.foldl Work.warn w).notices = w.notices ++ file.warnings.map .warning :=
    Work.warns_notices (fun t => t) file.warnings w
  have hstart : (Draft.start file (Tree.pathText way) w info children).work.notices =
      w.notices ++ (file.warnings.map .warning ++ (repeated [] ((available info children).map
        (·.1))).map fun n => .warning (repeatedText (Tree.pathText way) n)) := by
    unfold Draft.start
    dsimp only
    rw [Work.warns_notices, Work.settles_notices, hfile, List.append_assoc]
  rw [arrangeBy_eq]
  unfold Draft.done remarksBy
  dsimp only
  rw [Draft.keys_notices, hstart, List.append_assoc]

/-- What is remarked in the turn of a folder. After trouble nothing is. -/
def remarksHere (disk : Disk) (metaName : String) (way : List String) (w : Work)
    (info : FolderInfo) (children : List Folder) : List Notice :=
  match w.stop, OverrideFile.read disk (info.source.join (Path.ofString metaName)) with
  | none, .ok file => remarksBy file metaName way w info children
  | _, _ => []

theorem arrangeHere_notices :
    (arrangeHere disk metaName way w info children).1.notices =
      w.notices ++ remarksHere disk metaName way w info children := by
  unfold arrangeHere remarksHere
  cases w.stop with
  | some t => exact (List.append_nil _).symm
  | none =>
    cases OverrideFile.read disk (info.source.join (Path.ofString metaName)) with
    | error t => exact (List.append_nil _).symm
    | ok file => exact arrangeBy_notices file

/-! ## The whole tree -/

mutual

/-- What is remarked in the turns of a folder and of those inside it. -/
def remarks (disk : Disk) (metaName : String) (way : List String) (w : Work) : Folder → List Notice
  | .mk info children =>
    remarksAll disk metaName way w children
      ++ remarksHere disk metaName way (arrangeAll disk metaName way w children).1 info
        (arrangeAll disk metaName way w children).2

def remarksAll (disk : Disk) (metaName : String) (way : List String) (w : Work) :
    List Folder → List Notice
  | [] => []
  | c :: rest =>
    remarks disk metaName (way ++ [c.segment]) w c
      ++ remarksAll disk metaName way (arrange disk metaName (way ++ [c.segment]) w c).1 rest

end

theorem arrangeAll_notices {cs : List Folder}
    (hone : ∀ c ∈ cs, ∀ v w, (arrange disk metaName v w c).1.notices =
      w.notices ++ remarks disk metaName v w c) :
    (arrangeAll disk metaName way w cs).1.notices =
      w.notices ++ remarksAll disk metaName way w cs := by
  induction cs generalizing w with
  | nil => simp [arrangeAll, remarksAll]
  | cons c cs ih =>
    rw [arrangeAll_cons, remarksAll]
    dsimp only
    rw [ih fun d hd => hone d (List.mem_cons_of_mem _ hd), hone c List.mem_cons_self,
      List.append_assoc]

/-- The turns of all folders add their remarks, and nothing else is added or taken away. -/
theorem arrange_notices (f : Folder) :
    (arrange disk metaName way w f).1.notices = w.notices ++ remarks disk metaName way w f := by
  induction f generalizing way w with
  | mk info children ih =>
    rw [arrange_mk, arrangeHere_notices, arrangeAll_notices fun c hc v w => ih c hc,
      List.append_assoc, remarks]

end Arrange

/-- What is remarked while a tree is arranged. -/
def Tree.remarks (t : Tree) (disk : Disk) : List Notice :=
  Arrange.remarks disk t.metaName [] ⟨t.chapters, [], none⟩ t.root

theorem Tree.arrange_notices (t : Tree) (disk : Disk) : (t.arrange disk).2.1 = t.remarks disk :=
  Arrange.arrange_notices t.root

end Sourcebook
