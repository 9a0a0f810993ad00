-- Reading a project again. In front of another disk the same files are selected and tell the same,
-- if what the searches find, and where includes are looked for, is aloof from what has changed.
import Mathlib
import Sourcebook.Proofs.Book.Includable
import Sourcebook.Proofs.Book.Readings
import Sourcebook.Proofs.Book.Telling
import Sourcebook.Proofs.Disk.Selecting
import Sourcebook.Proofs.Disk.Twins

namespace Sourcebook

/-! ## The selected files -/

/-- Lists that come with the same elements from each step come with the same elements. -/
theorem mapM_flatten_again {ε α β : Type} {f g : α → Except ε (List β)} {as : List α}
    {lists : List (List β)}
    (hone : ∀ a ∈ as, ∀ bs, f a = .ok bs → ∃ cs, g a = .ok cs ∧ ∀ b, b ∈ cs ↔ b ∈ bs)
    (h : as.mapM f = .ok lists) :
    ∃ lists', as.mapM g = .ok lists' ∧ ∀ b, b ∈ lists'.flatten ↔ b ∈ lists.flatten := by
  induction as generalizing lists with
  | nil =>
    cases h
    exact ⟨[], rfl, fun _ => Iff.rfl⟩
  | cons a as ih =>
    rw [List.mapM_cons] at h
    obtain ⟨bs, hbs, h⟩ := bind_ok h
    obtain ⟨rest, hrest, h⟩ := bind_ok h
    cases h
    obtain ⟨cs, hcs, hsame⟩ := hone a List.mem_cons_self bs hbs
    obtain ⟨rest', hrest', hagain⟩ := ih (fun b hb => hone b (List.mem_cons_of_mem _ hb)) hrest
    refine ⟨cs :: rest', ?_, fun b => ?_⟩
    · rw [List.mapM_cons, hcs, hrest']
      rfl
    · rw [List.flatten_cons, List.flatten_cons, List.mem_append, List.mem_append, hsame, hagain]

namespace Discovery

open Disk (Twins Aloof)

variable {d d' : Disk} {s : Settings} {files : List Location} {T : Location → Prop}

/-- A path, as a pattern spells it, that is not taken out. -/
def keeps (s : Settings) (spelled : List String) : Bool :=
  !isExcluded ("/".intercalate spelled) s.excluded

/-- The files that one pattern selects, as it is written. -/
def filesOf (d : Disk) (s : Settings) (pattern : String) : Except GlobError (List Location) := do
  (ofPattern d s (← Glob.parse pattern)).mapError .trouble

/-- What the selection of the files rests on. -/
def RestsOn (d : Disk) (s : Settings) (p : Path) : Prop :=
  ∃ pattern ∈ s.selected, ∃ parts, Glob.parse pattern = .ok parts ∧
    Glob.RestsOn d s.root parts (keeps s) p

theorem files_eq (d : Disk) (s : Settings) :
    Discovery.files d s =
      (s.selected.mapM (filesOf d s)).map fun found => Location.sorted found.flatten := by
  show (s.selected.mapM (filesOf d s) >>= _) = _
  cases s.selected.mapM (filesOf d s) <;> rfl

theorem ofPattern_eq (d : Disk) (s : Settings) (parts : List GlobPart) :
    ofPattern d s parts =
      (Glob.find d s.root parts (keeps s)).map (·.map (Location.walk s.root)) := by
  unfold ofPattern Glob.find
  cases Glob.run d s.root parts with
  | error t => rfl
  | ok all =>
    show (all.filterM (isWanted d s) >>= _) = Except.map _ (all.filterM (isWanted d s))
    cases all.filterM (isWanted d s) <;> rfl

/-- A selected file stands at the end of a path that the selection rests on. -/
theorem restsOn_of_mem (hroot : ".." ∉ s.root) (h : Discovery.files d s = .ok files) {l : Location}
    (hl : l ∈ files) : ∃ p, RestsOn d s p ∧ p.normal [] = l ∧ ∃ e, d.get? l = some e := by
  obtain ⟨pattern, hpattern, parts, hparts, spelled, ⟨⟨all, hall, hin⟩, hfile, hkept⟩, rfl⟩ :=
    selects_of_mem h hl
  have hs := (Glob.mem_run hall).mp hin
  have hfound : Glob.isFound d s.root (keeps s) spelled = .ok true := by
    unfold Glob.isFound keeps
    rw [hfile, hkept]
    rfl
  have hplace : (Glob.placed s.root spelled).normal [] = Location.walk s.root spelled := by
    rw [Path.normal_eq, show (Glob.placed s.root spelled).parts = s.root ++ spelled from rfl,
      Location.walk_append, Location.walk_down hroot, List.nil_append]
  refine ⟨_, ⟨pattern, hpattern, parts, hparts, hs.1, Or.inr ⟨spelled, hs, ?_, rfl⟩⟩, hplace, ?_⟩
  · simp [hfound]
  · rw [← hplace]
    exact Glob.isFound_true hfound

/-- Where no pattern has a parent step, the selection rests on the files that it gives. -/
theorem RestsOn.plain (hd : d.Named) (hbelow : ∀ pattern ∈ s.selected, StaysBelow pattern)
    (hf : Discovery.files d s = .ok files) {p : Path} (h : RestsOn d s p) :
    ∃ l ∈ files, p = Path.ofLocation l := by
  obtain ⟨pattern, hpattern, parts, hparts, hrest⟩ := h
  rw [files_eq] at hf
  obtain ⟨lists, hlists, rfl⟩ := map_ok hf
  obtain ⟨one, hin, hone⟩ := mapM_ok_mem hlists hpattern
  obtain ⟨parts', hparts', hof⟩ := bind_ok hone
  obtain rfl : parts = parts' := Except.ok.inj (hparts.symm.trans hparts')
  have hmap := mapError_ok hof
  rw [ofPattern_eq] at hmap
  obtain ⟨found, hfound, rfl⟩ := map_ok hmap
  obtain ⟨names, hnames, rfl⟩ := hrest.of_find hfound
  obtain ⟨all, hall, hkept⟩ := bind_ok hfound
  have hup : ".." ∉ names := by
    intro hup
    rcases Glob.mem_of_run hall ((filterM_ok hkept).1.subset hnames) hup with ⟨x, hx, hn⟩ | hn
    · exact (hd x hx _ hn).1 rfl
    · exact hbelow pattern hpattern (Glob.named_of_parse hparts hn)
  refine ⟨Location.walk s.root names, Location.mem_sorted.mpr (List.mem_flatten.mpr
    ⟨_, hin, List.mem_map_of_mem hnames⟩), ?_⟩
  rw [Location.walk_down hup]
  rfl

section Again

variable (h : Twins T d d') (hd : d.Listed) (hd' : d'.Listed)
  (hroot : d'.isDirAt s.root = d.isDirAt s.root) (hleft : ∀ p, RestsOn d s p → Aloof T p)
  (hright : ∀ p, RestsOn d' s p → Aloof T p)

include h hd hd' hroot hleft hright

theorem filesOf_again {pattern : String} (hpattern : pattern ∈ s.selected) {one : List Location}
    (hone : filesOf d s pattern = .ok one) :
    ∃ two, filesOf d' s pattern = .ok two ∧ ∀ l, l ∈ two ↔ l ∈ one := by
  obtain ⟨parts, hparts, hof⟩ := bind_ok hone
  have hmap := mapError_ok hof
  rw [ofPattern_eq] at hmap
  obtain ⟨found, hfound, rfl⟩ := map_ok hmap
  obtain ⟨found', hfound', hsame⟩ := Glob.find_again h hd hd' hroot
    (fun p hp => hleft p ⟨pattern, hpattern, parts, hparts, hp⟩)
    (fun p hp => hright p ⟨pattern, hpattern, parts, hparts, hp⟩) hfound
  refine ⟨found'.map (Location.walk s.root), ?_, fun l => ?_⟩
  · unfold filesOf
    rw [hparts]
    show (ofPattern d' s parts).mapError _ = _
    rw [ofPattern_eq, hfound']
    rfl
  · simp only [List.mem_map, hsame]

/-- The same files are selected again. -/
theorem files_again (hf : Discovery.files d s = .ok files) : Discovery.files d' s = .ok files := by
  rw [files_eq] at hf ⊢
  obtain ⟨lists, hlists, rfl⟩ := map_ok hf
  obtain ⟨lists', hlists', hsame⟩ := mapM_flatten_again
    (fun pattern hpattern _ hone => filesOf_again h hd hd' hroot hleft hright hpattern hone) hlists
  rw [hlists']
  exact congrArg Except.ok (Location.sorted_congr hsame)

end Again

end Discovery

/-! ## Searches -/

namespace Shelf

variable {a b : Shelf} {d' : Disk} {target : String} {current : Path}

/-- The same shelf in front of another disk. -/
def onDisk (a : Shelf) (d' : Disk) : Shelf := { a with disk := d' }

def Found.onDisk (f : Found) (d' : Disk) : Found := { f with shelf := f.shelf.onDisk d' }

/-- The path that a search looks at before it turns to the selected files, if there is one. -/
def lookedAt (a : Shelf) (target : String) (current : Path) : Option Path :=
  let p := Path.ofString target
  if p.isAbsolute then some p
  else if target.toList.head? == some '.' then
    some (Path.ofLocation ((current.parent.join p).normal []))
  else if target.toList.contains '/' then some (Path.ofLocation (p.normal a.settings.root))
  else none

/-- Another disk has the same selected files, and they can be read there alike. -/
structure SameFiles (a : Shelf) (d' : Disk) : Prop where
  files : Discovery.files d' a.settings = Discovery.files a.disk a.settings
  read : ∀ ls, a.list = .ok ls → ∀ l ∈ ls,
    d'.read (Path.ofLocation l) = a.disk.read (Path.ofLocation l)

theorem SameFiles.alike (h : a.SameFiles d') (hab : a.Alike b) : b.SameFiles d' := by
  obtain ⟨hdisk, hsettings, hlist⟩ := hab
  exact ⟨hsettings ▸ hdisk ▸ h.files, hdisk ▸ hlist ▸ h.read⟩

theorem SameFiles.list (h : a.SameFiles d') : (a.onDisk d').list = a.list := by
  unfold Shelf.list onDisk
  cases a.listed with
  | none => exact h.files
  | some ls => rfl

theorem amongListed_onDisk (hlist : (a.onDisk d').list = a.list) (target : String) :
    (a.onDisk d').amongListed target = (a.amongListed target).map (Found.onDisk · d') := by
  unfold amongListed
  rw [hlist]
  cases a.list with
  | error e => rfl
  | ok ls =>
    dsimp only [onDisk]
    split <;> rfl

/-- What a search sets out to look at is where it looks before it turns to the selected files. -/
theorem mem_lookedAt {p : Path} (h : p ∈ (aim a.settings.root target current).path?) :
    p ∈ a.lookedAt target current := by
  unfold aim at h
  unfold lookedAt
  dsimp only at h ⊢
  split at h
  · next habsolute =>
    rw [if_pos habsolute]
    exact h
  · next habsolute =>
    rw [if_neg habsolute]
    split at h
    · next hdot =>
      rw [if_pos hdot]
      split at h
      · cases h
      · exact h
    · next hdot =>
      rw [if_neg hdot]
      split at h
      · next hslash =>
        rw [if_pos hslash]
        split at h
        · cases h
        · exact h
      · cases h

/-- A search finds the same where the one path that it looks at is a file on both disks or none. -/
theorem find_onDisk (hlist : (a.onDisk d').list = a.list)
    (hlook : ∀ p ∈ a.lookedAt target current, d'.isFile p = a.disk.isFile p) :
    (a.onDisk d').find target current = (a.find target current).map (Found.onDisk · d') := by
  refine find_follows rfl (fun p hp => ?_) (fun _ => rfl) (amongListed_onDisk hlist target)
  unfold fileAt
  rw [show (a.onDisk d').disk.isFile p = a.disk.isFile p from hlook p (mem_lookedAt hp)]

/-- What is found is a file at the path that was looked at, or a selected file. -/
theorem path_of_find {found : Found} {p : Path} (h : a.find target current = .ok found)
    (hp : found.path = some p) :
    p ∈ a.lookedAt target current ∧ a.disk.isFile p = .ok true ∨
      ∃ ls, a.list = .ok ls ∧ ∃ l ∈ ls, p = Path.ofLocation l := by
  rcases find_cases h with ⟨x, rfl, hx⟩ | h
  · obtain ⟨hlook, hfile⟩ := hx p hp
    exact Or.inl ⟨mem_lookedAt hlook, hfile⟩
  · obtain ⟨ls, hls, -, hpath, -⟩ := of_amongListed h
    obtain ⟨l, hl, rfl⟩ := Option.map_eq_some_iff.mp (hpath.symm.trans hp)
    exact Or.inr ⟨ls, hls, l, List.mem_of_mem_filter (List.mem_of_head? hl), rfl⟩

/-- What is found can be read alike. -/
theorem read_found {found : Found} {p : Path} (h : a.SameFiles d')
    (hlook : ∀ p ∈ a.lookedAt target current, d'.find? p = a.disk.find? p)
    (hfind : a.find target current = .ok found) (hp : found.path = some p) :
    d'.read p = a.disk.read p := by
  rcases path_of_find hfind hp with ⟨hin, hfile⟩ | ⟨ls, hlist, l, hl, rfl⟩
  · obtain ⟨bytes, hbytes⟩ := Disk.find?_of_isFile hfile
    rw [Disk.read_of_find? hbytes, Disk.read_of_find? ((hlook p hin).trans hbytes)]
  · exact h.read ls hlist l hl

end Shelf

/-! ## Lines -/

namespace FileState

variable {s : FileState} {d' : Disk} {n : Nat}

/-- The same state in front of another disk. -/
def onDisk (s : FileState) (d' : Disk) : FileState := s.onShelf (s.shelf.onDisk d')

def Step.onDisk (x : Step) (d' : Disk) : Step := { x with state := x.state.onDisk d' }

/-- The path that a line looks at, if it is an include of a chapter. -/
def lookedAt (s : FileState) (line : List Char) : Option Path :=
  match Directive.ofLine line with
  | .embed target _ =>
    if s.chapter.isSome then s.shelf.lookedAt (String.ofList target) (Path.ofLocation s.source)
    else none
  | _ => none

/-- The paths that lines look at for includes, up to the line that breaks off. -/
def lookups (s : FileState) (n : Nat) : List (List Char) → List Path
  | [] => []
  | line :: rest =>
    let step := s.readLine n line
    (s.lookedAt line).toList ++
      if step.error.isSome then [] else step.state.lookups (n + 1) rest

theorem embedIn_onDisk (h : s.shelf.SameFiles d') {target : String}
    (hlook : ∀ p ∈ s.shelf.lookedAt target (Path.ofLocation s.source),
      d'.find? p = s.shelf.disk.find? p) (n : Nat) (c : String) (raw : Option String) :
    (s.onDisk d').embedIn n c target raw = (s.embedIn n c target raw).onDisk d' := by
  refine embedIn_reshelf (g := (·.onDisk d')) (fun _ => rfl)
    (Shelf.find_onDisk h.list fun p hp => Disk.isFile_congr (hlook p hp))
    (fun found p hf hp => ?_) n c raw
  refine congrArg (Except.map Text.decodeFile) ((Shelf.read_found h hlook hf hp).trans ?_)
  rw [(Shelf.find_alike hf).disk]

theorem readLine_onDisk (h : s.shelf.SameFiles d') {line : List Char}
    (hlook : ∀ p ∈ s.lookedAt line, d'.find? p = s.shelf.disk.find? p) :
    (s.onDisk d').readLine n line = (s.readLine n line).onDisk d' := by
  refine readLine_reshelf (g := (·.onDisk d')) fun target options hline =>
    embed_reshelf fun c hc => embedIn_onDisk (s := s.closed) h (fun p hp => hlook p ?_) n c _
  unfold lookedAt
  rw [hline, hc]
  exact hp

theorem readLines_onDisk {lines : List (List Char)} (h : s.shelf.SameFiles d')
    (hlook : ∀ p ∈ s.lookups n lines, d'.find? p = s.shelf.disk.find? p) :
    (s.onDisk d').readLines n lines = s.readLines n lines := by
  refine readLines_reshelf (g := (·.onDisk d'))
    (P := fun s n lines => s.shelf.SameFiles d' ∧
      ∀ p ∈ s.lookups n lines, d'.find? p = s.shelf.disk.find? p)
    (fun {s n line rest} hs => ?_) (fun {s n line rest} hs herror => ?_) ⟨h, hlook⟩
  · refine readLine_onDisk hs.1 fun p hp => hs.2 p ?_
    exact List.mem_append_left _ (Option.mem_toList.mpr hp)
  · have hstate := (s.readLine_state n line).2.2
    refine ⟨hs.1.alike hstate, fun p hp => ?_⟩
    rw [← hstate.disk]
    refine hs.2 p (List.mem_append_right _ ?_)
    rw [herror]
    exact hp

end FileState

/-! ## Books -/

namespace Desk

variable {disk d' : Disk} {s : Settings} {files : List Location} {d : Desk} {l : Location}

/-- A desk has the list that it had, or one that an event brought. -/
theorem applyAll_listed (s : Settings) (d : Desk) (evs : List Event) :
    (d.applyAll s evs).1.listed = d.listed ∨
      ∃ ls, .listed ls ∈ evs ∧ (d.applyAll s evs).1.listed = some ls := by
  induction evs generalizing d with
  | nil => exact Or.inl rfl
  | cons e rest ih =>
    unfold applyAll
    cases hone : d.apply s e with
    | error text => exact Or.inl rfl
    | ok d1 =>
      rcases ih d1 with h | ⟨ls, hls, h⟩
      · rcases apply_listed hone with he | ⟨ls, rfl, he⟩
        · exact Or.inl (h.trans he)
        · exact Or.inr ⟨ls, List.mem_cons_self, h.trans he⟩
      · exact Or.inr ⟨ls, List.mem_cons_of_mem _ hls, h⟩

/-- Reading does not change the list of a desk that has one. -/
theorem readSource_listed (h : d.listed = some files) (p : Path) :
    (d.readSource disk s p).1.listed = some files := by
  have htext : ∀ source text, (d.readText disk s source text).1.listed = some files := by
    intro source text
    have hall : (d.applyAll s (Event.ofText ⟨disk, s, d.listed⟩ source text).1).1.listed =
        some files := by
      rcases applyAll_listed s d (Event.ofText ⟨disk, s, d.listed⟩ source text).1 with
        he | ⟨ls, hls, he⟩
      · exact he.trans h
      · have hlist := FileState.readLines_listed hls
        rw [show (FileState.ofFile ⟨disk, s, d.listed⟩ source).shelf.list = .ok files by
          rw [h]; rfl] at hlist
        rw [he, Except.ok.inj hlist]
    unfold readText
    dsimp only
    rcases hread : d.applyAll s (Event.ofText ⟨disk, s, d.listed⟩ source text).1 with ⟨d1, _ | words⟩
    · rw [hread] at hall
      cases (Event.ofText ⟨disk, s, d.listed⟩ source text).2 <;> exact hall
    · rw [hread] at hall
      exact hall
  have hat : ∀ text, (d.readTextAt disk s p text).1.listed = some files := by
    intro text
    unfold readTextAt
    split
    · exact h
    · exact htext _ _
  unfold readSource
  split
  · exact h
  · split
    · exact h
    · split
      · exact h
      · exact hat _

/-- The paths that a selected file looks at for its includes. -/
def lookups (disk : Disk) (s : Settings) (files : List Location) (l : Location) : List Path :=
  match disk.read (Path.ofLocation l) with
  | .error _ => []
  | .ok bytes =>
    match Text.decodeFile bytes with
    | .error _ => []
    | .ok text =>
      (FileState.ofFile ⟨disk, s, some files⟩ ((Path.ofLocation l).normal [])).lookups 1
        (sourceLines text)

theorem readSource_onDisk (h : (Shelf.mk disk s (some files)).SameFiles d') (hl : l ∈ files)
    (hlook : ∀ p ∈ lookups disk s files l, d'.find? p = disk.find? p)
    (hd : d.listed = some files) :
    d.readSource d' s (Path.ofLocation l) = d.readSource disk s (Path.ofLocation l) := by
  have hread : d'.read (Path.ofLocation l) = disk.read (Path.ofLocation l) := h.read files rfl l hl
  unfold readSource
  rw [hread]
  unfold lookups at hlook
  split
  · rfl
  · cases hbytes : disk.read (Path.ofLocation l) with
    | error t => rfl
    | ok bytes =>
      rw [hbytes] at hlook
      dsimp only at hlook ⊢
      cases htext : Text.decodeFile bytes with
      | error u => rfl
      | ok text =>
        rw [htext] at hlook
        have hevents := FileState.readLines_onDisk (s := FileState.ofFile ⟨disk, s, some files⟩ _) h hlook
        have honto : (FileState.ofFile ⟨disk, s, some files⟩ ((Path.ofLocation l).normal [])).onDisk d' =
            .ofFile ⟨d', s, some files⟩ ((Path.ofLocation l).normal []) := FileState.onShelf_ofFile _ _ _
        dsimp only
        unfold readTextAt readText Event.ofText
        rw [hd, ← honto, hevents]

/-- Selected files are read alike in front of another disk. -/
theorem readSources_onDisk (h : (Shelf.mk disk s (some files)).SameFiles d') {ls : List Location}
    (hls : ∀ l ∈ ls, l ∈ files)
    (hlook : ∀ l ∈ ls, ∀ p ∈ lookups disk s files l, d'.find? p = disk.find? p)
    (hd : d.listed = some files) : d.readSources d' s ls = d.readSources disk s ls := by
  induction ls generalizing d with
  | nil => rfl
  | cons l rest ih =>
    obtain ⟨hl, hrest⟩ := List.forall_mem_cons.mp hls
    obtain ⟨hfirst, hlater⟩ := List.forall_mem_cons.mp hlook
    have hlisted : (d.readSource disk s (Path.ofLocation l)).1.listed = some files :=
      readSource_listed hd _
    unfold readSources
    rw [readSource_onDisk h hl hfirst hd]
    rcases hone : d.readSource disk s (Path.ofLocation l) with ⟨d1, _ | e⟩
    · rw [hone] at hlisted
      exact ih hrest hlater hlisted
    · rw [hone] at hlisted
      cases e with
      | trouble t => exact ih hrest hlater hlisted
      | undecodable u => exact ih hrest hlater hlisted
      | scan e => rfl

end Desk

namespace Book

open Disk (Twins Aloof)

variable {d d' : Disk} {s : Settings} {T : Location → Prop}

/-- What a book rests on: what selects its files, and where these look for includes. -/
def RestsOn (d : Disk) (s : Settings) (p : Path) : Prop :=
  Discovery.RestsOn d s p ∨
    ∃ files, Discovery.files d s = .ok files ∧ ∃ l ∈ files, p ∈ Desk.lookups d s files l

/-- On a twin the same book is read, if what it rests on is aloof. -/
theorem ofProject_again (h : Twins T d d') (hd : d.Listed) (hd' : d'.Listed) (hroot : ".." ∉ s.root)
    (hdir : d'.isDirAt s.root = d.isDirAt s.root) (hleft : ∀ p, RestsOn d s p → Aloof T p)
    (hright : ∀ p, RestsOn d' s p → Aloof T p) {files : List Location}
    (hf : Discovery.files d s = .ok files) : ofProject d' s = ofProject d s := by
  have hf' : Discovery.files d' s = .ok files :=
    Discovery.files_again h hd hd' hdir (fun p hp => hleft p (Or.inl hp))
      (fun p hp => hright p (Or.inl hp)) hf
  have hsame : (Shelf.mk d s (some files)).SameFiles d' := by
    refine ⟨hf'.trans hf.symm, fun ls hls l hl => ?_⟩
    obtain rfl : files = ls := Except.ok.inj hls
    obtain ⟨p, hp, rfl, e, he⟩ := Discovery.restsOn_of_mem hroot hf hl
    have hplace := Path.normal_ofLocation p.normal_down
    refine Disk.AlikeOn.read (h.alikeOn_down ?_ p.normal_down (hplace.symm ▸ he))
    rw [hplace]
    exact (hleft p (Or.inl hp)).place
  have hlook : ∀ l ∈ files, ∀ p ∈ Desk.lookups d s files l, d'.find? p = d.find? p :=
    fun l hl p hp => h.find? (hleft p (Or.inr ⟨files, hf, l, hl, hp⟩))
  rw [ofProject_eq, ofProject_eq, hf', hf]
  simp only [Except.map]
  rw [Desk.readSources_onDisk hsame (fun _ hl => hl) hlook rfl]

end Book

end Sourcebook
