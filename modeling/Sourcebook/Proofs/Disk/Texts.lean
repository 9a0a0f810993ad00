-- Disks that hold the same texts. A search sees which places are directories, a reader sees the texts
-- of files; neither sees the bytes that a text was written with.
import Mathlib
import Sourcebook.Disk.Glob
import Sourcebook.Proofs.Disk.Making
import Sourcebook.Text.Utf8

namespace Sourcebook

/-- What shows of an entry: of a file its text, of a directory that it is one. -/
def Entry.text? : Entry → Option (Except Text.Undecodable (List Char))
  | .directory => none
  | .file bytes => some (Text.decodeFile bytes)

namespace Disk

/-- What shows of the entries of a disk. -/
def texts (d : Disk) : List (Location × Option (Except Text.Undecodable (List Char))) :=
  d.entries.map fun x => (x.1, x.2.text?)

/-- The disks differ at most in the bytes that their texts are written with. -/
def SameTexts (d d' : Disk) : Prop := d'.texts = d.texts

variable {d d' : Disk} {l : Location} {p : Path}

/-! ## Entries -/

theorem lookup_map_text (entries : List (Location × Entry)) (l : Location) :
    (entries.map fun x => (x.1, x.2.text?)).lookup l = (entries.lookup l).map Entry.text? := by
  induction entries with
  | nil => rfl
  | cons x rest ih =>
    obtain ⟨m, e⟩ := x
    rw [List.map_cons, List.lookup_cons, List.lookup_cons, ih]
    cases l == m <;> rfl

theorem children_eq (d : Disk) (l : Location) :
    d.children l = d.texts.filterMap fun x =>
      match Location.below? l x.1 with
      | some [name] => some name
      | _ => none := by
  rw [texts, List.filterMap_map]
  rfl

theorem directoriesBelow_eq (d : Disk) (l : Location) :
    d.directoriesBelow l = [] :: d.texts.filterMap fun x =>
      match Location.below? l x.1, x.2 with
      | some (name :: more), none => some (name :: more)
      | _, _ => none := by
  rw [texts, List.filterMap_map, directoriesBelow]
  congr 2
  funext ⟨m, e⟩
  dsimp only [Function.comp]
  rcases Location.below? l m with _ | (_ | ⟨name, more⟩) <;> cases e <;> rfl

/-! ## Looking -/

namespace SameTexts

theorem get? (h : SameTexts d d') (l : Location) :
    (d'.get? l).map Entry.text? = (d.get? l).map Entry.text? := by
  unfold Disk.get?
  split
  · rfl
  · rw [← lookup_map_text, ← lookup_map_text]
    exact congrArg (List.lookup l) h

/-- A place is missing, a directory or a file of one text on both disks. -/
theorem cases (h : SameTexts d d') (l : Location) :
    d.get? l = none ∧ d'.get? l = none ∨
      d.get? l = some .directory ∧ d'.get? l = some .directory ∨
      ∃ bytes bytes', d.get? l = some (.file bytes) ∧ d'.get? l = some (.file bytes') ∧
        Text.decodeFile bytes' = Text.decodeFile bytes := by
  have hget := h.get? l
  rcases hl : d.get? l with _ | (_ | bytes)
  · rw [hl] at hget
    exact Or.inl ⟨rfl, Option.map_eq_none_iff.mp hget⟩
  · rw [hl] at hget
    obtain ⟨e, he, htext⟩ := Option.map_eq_some_iff.mp hget
    cases e with
    | directory => exact Or.inr (Or.inl ⟨rfl, he⟩)
    | file bytes' => cases htext
  · rw [hl] at hget
    obtain ⟨e, he, htext⟩ := Option.map_eq_some_iff.mp hget
    cases e with
    | directory => cases htext
    | file bytes' => exact Or.inr (Or.inr ⟨bytes, bytes', rfl, he, Option.some.inj htext⟩)

theorem isDirAt (h : SameTexts d d') (l : Location) : d'.isDirAt l = d.isDirAt l := by
  unfold Disk.isDirAt
  rcases h.cases l with ⟨h1, h2⟩ | ⟨h1, h2⟩ | ⟨bytes, bytes', h1, h2, -⟩
  · rw [h1, h2]
  · rw [h1, h2]
  · rw [h1, h2]
    rfl

theorem follow (h : SameTexts d d') (parts : List String) (start : Location) :
    d'.follow start parts = d.follow start parts := by
  induction parts generalizing start with
  | nil => rfl
  | cons part rest ih =>
    simp only [Disk.follow, ih]
    rcases h.cases start with ⟨h1, h2⟩ | ⟨h1, h2⟩ | ⟨bytes, bytes', h1, h2, -⟩
    · rw [h1, h2]
    · rw [h1, h2]
    · rw [h1, h2]

theorem locate (h : SameTexts d d') (p : Path) : d'.locate p = d.locate p := by
  unfold Disk.locate
  rw [h.follow]

theorem find? (h : SameTexts d d') (p : Path) :
    (d'.find? p).map (·.map Entry.text?) = (d.find? p).map (·.map Entry.text?) := by
  unfold Disk.find?
  rw [h.locate]
  split
  · rfl
  · split
    · next l _ => exact congrArg Except.ok (h.get? l)
    · rfl
    · rfl

/-- What a path is asked is answered by what shows of the entry that it leads to. -/
theorem map_find? {α : Type} (h : SameTexts d d') {f : Option Entry → α}
    {g : Option (Option (Except Text.Undecodable (List Char))) → α}
    (hfg : ∀ e, f e = g (e.map Entry.text?)) (p : Path) :
    (d'.find? p).map f = (d.find? p).map f := by
  have hmap : ∀ x : Except Trouble (Option Entry), x.map f = (x.map (·.map Entry.text?)).map g := by
    intro x
    cases x with
    | error t => rfl
    | ok e => exact congrArg Except.ok (hfg e)
  rw [hmap, hmap, h.find?]

theorem pathExists (h : SameTexts d d') (p : Path) : d'.pathExists p = d.pathExists p :=
  h.map_find? (g := (·.isSome)) (fun _ => Option.isSome_map.symm) p

theorem isDir (h : SameTexts d d') (p : Path) : d'.isDir p = d.isDir p :=
  h.map_find? (g := (· == some none)) (fun e => by rcases e with _ | (_ | bytes) <;> rfl) p

theorem isFile (h : SameTexts d d') (p : Path) : d'.isFile p = d.isFile p :=
  h.map_find? (g := (·.any (·.isSome))) (fun e => by rcases e with _ | (_ | bytes) <;> rfl) p

/-- The same text is read, or reading fails alike. -/
theorem read (h : SameTexts d d') (p : Path) :
    (d'.read p).map Text.decodeFile = (d.read p).map Text.decodeFile := by
  unfold Disk.read
  rw [h.locate]
  cases d.locate p with
  | error k => rfl
  | ok l =>
    dsimp only
    rcases h.cases l with ⟨h1, h2⟩ | ⟨h1, h2⟩ | ⟨bytes, bytes', h1, h2, htext⟩
    · rw [h1, h2]
    · rw [h1, h2]
    · rw [h1, h2]
      exact congrArg Except.ok htext

theorem children (h : SameTexts d d') (l : Location) : d'.children l = d.children l := by
  rw [children_eq, children_eq, h]

theorem directoriesBelow (h : SameTexts d d') (l : Location) :
    d'.directoriesBelow l = d.directoriesBelow l := by
  rw [directoriesBelow_eq, directoriesBelow_eq, h]

end SameTexts

/-! ## Writing -/

/-- It does not show which bytes a text was put on a disk with. -/
theorem sameTexts_put (d : Disk) (l : Location) {e e' : Entry} (h : e'.text? = e.text?) :
    SameTexts (d.put l e) (d.put l e') := by
  unfold SameTexts texts put
  rw [List.map_cons, List.map_cons, h]

theorem sameTexts_write {a b : Disk} {bytes bytes' : List UInt8}
    (h : Text.decodeFile bytes' = Text.decodeFile bytes) (ha : d.write p bytes = .ok a)
    (hb : d.write p bytes' = .ok b) : SameTexts a b := by
  obtain ⟨-, -, rfl⟩ := write_eq_ok.mp ha
  obtain ⟨-, -, rfl⟩ := write_eq_ok.mp hb
  exact sameTexts_put d _ (congrArg some h)

/-- What was written is read. -/
theorem read_of_write {bytes : List UInt8} (h : d.write p bytes = .ok d') :
    d'.read p = .ok bytes := by
  obtain ⟨hl, hdir, -⟩ := write_eq_ok.mp h
  obtain ⟨-, hs, hplaces⟩ := locate_eq_ok.mp hl
  have hnow : d'.locate p = .ok (p.normal []) := by
    refine locate_eq_ok.mpr ⟨rfl, hs, fun spelled hpre hne => ?_⟩
    -- The way goes through directories alone, and the file was written where none stood.
    have hplace := hplaces spelled hpre hne
    have hother : Location.walk [] spelled ≠ p.normal [] := by
      intro heq
      rw [heq] at hplace
      exact hdir hplace
    rw [get?_write h, if_neg hother, hplace]
  unfold Disk.read
  rw [hnow]
  dsimp only
  rw [get?_write h, if_pos rfl]

end Disk

/-! ## Searching -/

namespace Glob

open Disk (SameTexts)

variable {d d' : Disk}

theorem reached?_of_sameTexts (h : SameTexts d d') (root : Location) (spelled : List String) :
    reached? d' root spelled = reached? d root spelled := by
  unfold reached?
  rw [h.follow]

theorem namesAt_of_sameTexts (h : SameTexts d d') (root : Location) (spelled : List String)
    (w : List Char) (more : Bool) :
    namesAt d' root spelled w more = namesAt d root spelled w more := by
  unfold namesAt
  rw [reached?_of_sameTexts h]
  split
  · rfl
  · simp only [h.children, h.isDirAt]

theorem directoriesAt_of_sameTexts (h : SameTexts d d') (root : Location) (spelled : List String) :
    directoriesAt d' root spelled = directoriesAt d root spelled := by
  unfold directoriesAt
  rw [reached?_of_sameTexts h]
  split
  · rfl
  · exact h.directoriesBelow _

/-- A pattern selects the same from every path on. -/
theorem select_of_sameTexts (h : SameTexts d d') (root : Location) (parts : List GlobPart)
    (spelled : List String) : select d' root parts spelled = select d root parts spelled := by
  induction parts generalizing spelled with
  | nil => rfl
  | cons part rest ih =>
    cases part with
    | here => rfl
    | named n =>
      simp only [select, h.pathExists, h.isDir, ih]
    | matching w =>
      simp only [select, namesAt_of_sameTexts h, ih]
    | anyDepth =>
      simp only [select, directoriesAt_of_sameTexts h, ih]

theorem run_of_sameTexts (h : SameTexts d d') (root : Location) (parts : List GlobPart) :
    run d' root parts = run d root parts := by
  unfold run
  rw [h.isDirAt, select_of_sameTexts h]

end Glob

end Sourcebook
