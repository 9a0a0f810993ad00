-- What the settings file may say under its keys. Patterns and paths are looked at before they are
-- taken, and a value of another form is refused. Names, titles and switches are not: whatever value
-- stands there is made to a text, or counts as true or false.
import Mathlib
import Sourcebook.Settings.Load
import Sourcebook.Proofs.Disk.Twins

namespace Sourcebook

open Data (Value)

/-- The value of a key, and not the file as such or a number, is what the error is about. -/
def SettingsError.aboutForm : SettingsError → Bool
  | .notMapping _ => true
  | .badList _ => true
  | .badPath _ => true
  | _ => false

namespace Settings

variable {d : Disk} {cwd root : Location} {file : Option Path} {strict : Option Bool}
  {doc : Yaml.Document} {w w' : Written} {key : String} {v : Value}

/-! ## Forms -/

/-- What a key is for. -/
inductive Form where
  | patterns
  | place
  | wording
  | intro
  | switch
  deriving Repr, DecidableEq

/-- The keys in the order in which they are looked at. -/
def forms : List (String × Form) :=
  [("include", .patterns), ("exclude", .patterns), ("out_dir", .place), ("summary_file", .place),
    ("api_dir", .place), ("meta_filename", .wording), ("intro_page", .intro), ("toc_title", .wording),
    ("strict", .switch), ("api_in_tree", .switch)]

/-- A value has the form that is meant for a key. Null is meant for every key. -/
def Form.fits : Form → Value → Bool
  | _, .null => true
  | .patterns, .text _ => true
  | .patterns, .list items => (texts? items).isSome
  | .place, .text s => !Text.allBlank s.toList
  | .wording, .text _ => true
  | .intro, .text _ => true
  | .intro, .bool b => !b
  | .switch, .bool _ => true
  | _, _ => false

/-- Null is the only value that is meant both for a path and for a switch. -/
theorem eq_null_of_fits (hplace : Form.place.fits v = true) (hswitch : Form.switch.fits v = true) :
    v = .null := by
  cases v with
  | null => rfl
  | text s => cases hswitch
  | _ => cases hplace

/-- Every key has a value of its form. -/
def Shaped (w : Written) : Prop := ∀ k ∈ forms, k.2.fits (w.getD k.1) = true

/-- Why a value is refused. Of patterns and paths the form is looked at; names and titles have to be
written, and no more. -/
def Form.fault? (key : String) (form : Form) (v : Value) : Option SettingsError :=
  match form with
  | .patterns => if form.fits v then none else some (.badList key)
  | .place =>
    if form.fits v then none
    else if v.writable then some (.badPath v.shown)
    else some .unwritable
  | .wording => if v.writable then none else some .unwritable
  | .intro => if v.writable then none else some .unwritable
  | .switch => none

def faultAt (w : Written) (k : String × Form) : Option SettingsError := k.2.fault? k.1 (w.getD k.1)

/-- The first key that is refused. -/
def firstFault (w : Written) : Option SettingsError := forms.findSome? (faultAt w)

/-! ## What is taken of a value -/

def chosen (default : List String) : Value → List String
  | .text s => [s]
  | .list items => (texts? items).getD default
  | _ => default

def placed (root : Location) (default : Path) : Value → Path
  | .text s => placeIn root s
  | _ => default

def worded (default : String) : Option Value → String
  | none => default
  | some v => v.asText

def introduced (default : Option String) : Option Value → Option String
  | none => default
  | some .null => none
  | some (.bool false) => none
  | some v => some v.asText

/-- The settings that come of a file in which no key is refused. -/
def taken (root : Location) (w : Written) : Settings :=
  let d := ofRoot root
  { root
    selected := chosen d.selected (w.getD "include")
    excluded := chosen d.excluded (w.getD "exclude")
    outDir := placed root d.outDir (w.getD "out_dir")
    summaryFile := placed root d.summaryFile (w.getD "summary_file")
    apiDir := placed root d.apiDir (w.getD "api_dir")
    metaName := worded d.metaName (w "meta_filename")
    introPage := introduced d.introPage (w "intro_page")
    tocTitle := worded d.tocTitle (w "toc_title")
    strict := flag w "strict" d.strict
    apiInTree := flag w "api_in_tree" d.apiInTree }

/-! ## One key -/

/-- A result, unless there is a fault. -/
def barring {α : Type} (fault : Option SettingsError) (a : α) : Except SettingsError α :=
  match fault with
  | some e => .error e
  | none => .ok a

theorem patterns_eq (default : List String) : patterns w key default =
    barring (faultAt w (key, .patterns)) (chosen default (w.getD key)) := by
  unfold patterns faultAt Form.fault?
  cases w.getD key with
  | list items =>
    cases h : texts? items with
    | none => simp [Form.fits, h, barring]
    | some ss => simp [Form.fits, h, barring, chosen]
  | _ => rfl

theorem place_eq (default : Path) : place root w key default =
    barring (faultAt w (key, .place)) (placed root default (w.getD key)) := by
  unfold place faultAt Form.fault?
  cases w.getD key with
  | null => rfl
  | text s =>
    cases h : Text.allBlank s.toList with
    | true => simp [Form.fits, h, barring, Value.writable]
    | false => simp [Form.fits, h, barring, placed]
  | _ =>
    simp only [Form.fits, writtenWith, Bool.false_eq_true, if_false]
    split <;> rfl

theorem wording_eq (default : String) : wording w key default =
    barring (faultAt w (key, .wording)) (worded default (w key)) := by
  unfold wording faultAt Form.fault? Written.getD
  cases w key with
  | none => rfl
  | some v =>
    simp only [writtenWith, Option.getD_some]
    split <;> rfl

theorem intro_eq (default : Option String) : intro w default =
    barring (faultAt w ("intro_page", .intro)) (introduced default (w "intro_page")) := by
  unfold intro faultAt Form.fault? Written.getD
  cases w "intro_page" with
  | none => rfl
  | some v =>
    cases v with
    | null => rfl
    | bool b => cases b <;> rfl
    | _ =>
      simp only [writtenWith, Option.getD_some]
      split <;> rfl

/-! ## The whole file -/

/-- A step that a fault may stop, with the steps for other keys behind it. -/
theorem barring_step {α β : Type} {k : String × Form} {rest : List (String × Form)} {a : α} {b : β}
    {next : α → Except SettingsError β} (h : next a = barring (rest.findSome? (faultAt w)) b) :
    barring (faultAt w k) a >>= next = barring ((k :: rest).findSome? (faultAt w)) b := by
  rw [List.findSome?_cons]
  cases faultAt w k with
  | some e => rfl
  | none => exact h

/-- The first key that is refused decides, and without one the settings are those of the file. -/
theorem ofWritten_eq (root : Location) (w : Written) :
    ofWritten root w = barring (firstFault w) (taken root w) := by
  unfold ofWritten firstFault forms
  simp only [patterns_eq, place_eq, wording_eq, intro_eq]
  iterate 8 refine barring_step ?_
  rfl

/-- No key is refused: patterns and paths have their form, and names and titles can be written. -/
structure Accepted (w : Written) : Prop where
  checked : ∀ k ∈ forms, k.2 = .patterns ∨ k.2 = .place → k.2.fits (w.getD k.1) = true
  writable : ∀ k ∈ forms, k.2 = .wording ∨ k.2 = .intro → (w.getD k.1).writable = true

theorem faultAt_eq_none {k : String × Form} : faultAt w k = none ↔
    (k.2 = .patterns ∨ k.2 = .place → k.2.fits (w.getD k.1) = true) ∧
      (k.2 = .wording ∨ k.2 = .intro → (w.getD k.1).writable = true) := by
  obtain ⟨key, form⟩ := k
  unfold faultAt Form.fault?
  cases form with
  | place =>
    dsimp only
    split
    · next h => simp [h]
    · next h =>
      simp only [h]
      split <;> simp
  | _ => simp

theorem firstFault_eq_none : firstFault w = none ↔ Accepted w := by
  unfold firstFault
  rw [List.findSome?_eq_none_iff]
  constructor
  · exact fun h => ⟨fun k hk => (faultAt_eq_none.mp (h k hk)).1,
      fun k hk => (faultAt_eq_none.mp (h k hk)).2⟩
  · exact fun h k hk => faultAt_eq_none.mpr ⟨h.checked k hk, h.writable k hk⟩

/-- What is refused is refused for its form, unless it holds a number that cannot be written. -/
theorem firstFault_eq_some {e : SettingsError} (h : firstFault w = some e) :
    e.aboutForm = true ∨ e = .unwritable ∧ ∃ k ∈ forms, (w.getD k.1).writable = false := by
  obtain ⟨⟨key, form⟩, hk, he⟩ := List.exists_of_findSome?_eq_some h
  unfold faultAt Form.fault? at he
  cases form with
  | patterns =>
    dsimp only at he
    split at he
    · cases he
    · obtain rfl := Option.some.inj he
      exact .inl rfl
  | place =>
    dsimp only at he
    split at he
    · cases he
    · split at he
      · obtain rfl := Option.some.inj he
        exact .inl rfl
      · next hw =>
        obtain rfl := Option.some.inj he
        exact .inr ⟨rfl, _, hk, Bool.eq_false_iff.mpr hw⟩
  | switch => cases he
  | _ =>
    dsimp only at he
    split at he
    · cases he
    · next hw =>
      obtain rfl := Option.some.inj he
      exact .inr ⟨rfl, _, hk, Bool.eq_false_iff.mpr hw⟩

theorem writable_of_fits {form : Form} (h : form = .wording ∨ form = .intro) (hv : form.fits v = true) :
    v.writable = true := by
  rcases h with rfl | rfl <;> cases v <;> simp_all [Form.fits, Value.writable]

theorem Shaped.accepted (h : Shaped w) : Accepted w where
  checked k hk _ := h k hk
  writable k hk hform := writable_of_fits hform (h k hk)

theorem flag_eq : flag w key false = (w.getD key).truthy := by
  unfold flag Written.getD
  cases w key <;> rfl

/-- Null says the same as nothing, where a key is not a name or a title. -/
theorem ofWritten_congr (root : Location) (h : ∀ key, w'.getD key = w.getD key)
    (hsame : ∀ key ∈ ["meta_filename", "intro_page", "toc_title"], w' key = w key) :
    ofWritten root w' = ofWritten root w := by
  have hfault : firstFault w' = firstFault w := by
    unfold firstFault
    congr 1
    funext k
    unfold faultAt
    rw [h]
  have htaken : taken root w' = taken root w := by
    simp only [taken, h, hsame "meta_filename" (by decide), hsame "intro_page" (by decide),
      hsame "toc_title" (by decide), show (ofRoot root).strict = false from rfl,
      show (ofRoot root).apiInTree = false from rfl, flag_eq]
  rw [ofWritten_eq, ofWritten_eq, hfault, htaken]

/-! ## Loading -/

/-- The settings file: the one that is named, or the usual one. -/
def fileOf (cwd root : Location) : Option Path → Path
  | some p => (Path.ofLocation cwd).join p
  | none => placeIn root fileName

/-- The settings file is there and is read as a document. -/
def Holds (d : Disk) (cwd root : Location) (file : Option Path) (doc : Yaml.Document) : Prop :=
  ∃ bytes, d.find? (fileOf cwd root file) = .ok (some (.file bytes)) ∧
    Yaml.Document.ofSource (.ofBytes bytes) = .ok doc

/-- The document is no mapping, and does not count as an empty one either. -/
def unmapped (doc : Yaml.Document) : Bool := doc.truthy && doc.entries?.isNone

/-- A document that counts as empty says nothing of any key. -/
theorem get?_of_empty (h : doc.truthy = false) : doc.get? = Written.nothing := by
  funext key
  unfold Yaml.Document.get? Yaml.Document.entries?
  unfold Yaml.Document.truthy at h
  cases hroot : doc.root with
  | single v n => rfl
  | row items => rfl
  | cell c =>
    rw [hroot] at h
    dsimp only at h ⊢
    cases hcell : doc.store.cell c with
    | list items => rfl
    | set members => rfl
    | map entries =>
      rw [hcell] at h
      obtain rfl : entries = [] := by simpa [Yaml.Cell.isEmpty] using h
      rfl
    | ordered entries =>
      rw [hcell] at h
      obtain rfl : entries = [] := by simpa [Yaml.Cell.isEmpty] using h
      rfl

theorem mappingOf_eq (shown : String) (doc : Yaml.Document) :
    mappingOf shown doc = if unmapped doc then .error (.notMapping shown) else .ok doc.get? := by
  unfold mappingOf unmapped
  cases ht : doc.truthy with
  | false => simp [get?_of_empty ht]
  | true => cases doc.entries? <;> simp

theorem written_eq (h : Holds d cwd root file doc) : ∃ shown, written d cwd root file =
    if unmapped doc then .error (.notMapping shown) else .ok doc.get? := by
  obtain ⟨bytes, hfind, hdoc⟩ := h
  have hthere : d.pathExists (fileOf cwd root file) = .ok true := by
    rw [Disk.pathExists, hfind]
    rfl
  have hread : ∀ shown, readAt d (fileOf cwd root file) shown =
      if unmapped doc then .error (.notMapping shown) else .ok doc.get? := by
    intro shown
    rw [← mappingOf_eq, readAt, Disk.read_of_find? hfind]
    show ((Yaml.Document.ofSource (.ofBytes bytes)).mapError SettingsError.yaml >>= _) = _
    rw [hdoc]
    rfl
  cases file with
  | some p =>
    refine ⟨p.text, (hread p.text).symm ▸ ?_⟩
    unfold written
    simp only [show (Path.ofLocation cwd).join p = fileOf cwd root (some p) from rfl, hthere]
    rfl
  | none =>
    refine ⟨(placeIn root fileName).text, (hread _).symm ▸ ?_⟩
    unfold written
    simp only [show placeIn root fileName = fileOf cwd root none from rfl, hthere]
    rfl

/-- The settings of a file are those of its keys, and the switch of the call wins. -/
theorem load_eq (h : Holds d cwd root file doc) : ∃ shown, load d cwd root file strict =
    if unmapped doc then .error (.notMapping shown)
    else (barring (firstFault doc.get?) (taken root doc.get?)).map
      fun s => { s with strict := strict.getD s.strict } := by
  obtain ⟨shown, hwritten⟩ := written_eq h
  refine ⟨shown, ?_⟩
  unfold load
  rw [hwritten, ← ofWritten_eq]
  split
  · rfl
  · show (ofWritten root doc.get? >>= _) = _
    cases ofWritten root doc.get? <;> rfl

theorem load_eq_ok (h : Holds d cwd root file doc) {s : Settings} :
    load d cwd root file strict = .ok s ↔ ¬ unmapped doc ∧ Accepted doc.get? ∧
      s = { taken root doc.get? with strict := strict.getD (taken root doc.get?).strict } := by
  obtain ⟨shown, hload⟩ := @load_eq d cwd root file strict doc h
  rw [hload, ← firstFault_eq_none]
  by_cases hu : unmapped doc
  · simp [hu]
  · rw [if_neg hu]
    cases firstFault doc.get? with
    | some e => simp [barring, Except.map]
    | none => simp [barring, Except.map, hu, eq_comm]

theorem load_eq_error (h : Holds d cwd root file doc) {e : SettingsError}
    (he : load d cwd root file strict = .error e) : e.aboutForm = true ∨
      e = .unwritable ∧ ∃ k ∈ forms, (Written.getD doc.get? k.1).writable = false := by
  obtain ⟨shown, hload⟩ := @load_eq d cwd root file strict doc h
  rw [hload] at he
  split at he
  · obtain rfl := Except.error.inj he
    exact .inl rfl
  · cases hf : firstFault doc.get? with
    | none => simp [hf, barring, Except.map] at he
    | some f =>
      obtain rfl : f = e := by simpa [hf, barring, Except.map] using he
      exact firstFault_eq_some hf

/-- A file is loaded when it is a mapping, or counts as empty, with patterns and paths of their form
and with names and titles that can be written. A mapping in which each key has its form is one of
these. What is refused is refused for its form, unless it holds a number that cannot be written. And
null is the same as no key, for every key but the names and titles. -/
theorem files_are_refused_for_patterns_and_paths (h : Holds d cwd root file doc) :
    let w : Written := doc.get?
    let loaded := load d cwd root file strict
    (∀ s, loaded = .ok s ↔ unmapped doc = false ∧ Accepted w ∧
      s = { taken root w with strict := strict.getD (taken root w).strict }) ∧
    (Shaped w → Accepted w) ∧
    (∀ e, loaded = .error e → e.aboutForm = true ∨
      e = .unwritable ∧ ∃ k ∈ forms, (w.getD k.1).writable = false) ∧
    ∀ key ∉ ["meta_filename", "intro_page", "toc_title"], w key = some .null →
      ∀ d' doc', Holds d' cwd root file doc' → unmapped doc' = false →
        doc'.get? = Function.update w key none → load d' cwd root file strict = loaded := by
  intro w loaded
  refine ⟨fun s => by simpa using load_eq_ok h, Shaped.accepted, fun e he => load_eq_error h he, ?_⟩
  intro key hkey hnull d' doc' h' hmap' hw'
  have hmap : unmapped doc = false := by
    unfold unmapped
    cases he : doc.entries? with
    | none => simp [w, Yaml.Document.get?, he] at hnull
    | some entries => simp
  obtain ⟨shown, hload⟩ := @load_eq d cwd root file strict doc h
  obtain ⟨shown', hload'⟩ := @load_eq d' cwd root file strict doc' h'
  have hsame : ofWritten root doc'.get? = ofWritten root w := by
    rw [hw']
    refine ofWritten_congr root (fun k => ?_) fun k hk => ?_
    · unfold Written.getD
      by_cases hk : k = key
      · subst hk
        rw [Function.update_self, hnull]
        rfl
      · rw [Function.update_of_ne hk]
    · refine Function.update_of_ne ?_ _ _
      rintro rfl
      exact hkey hk
  rw [show loaded = _ from hload, hload', hmap, hmap', ← ofWritten_eq, ← ofWritten_eq, hsame]
  rfl

/-! ## Files of one line -/

/-- The value under a key, where single values are not looked up. -/
def glance (doc : Yaml.Document) : Written := fun key =>
  ((doc.entries?.getD []).find? (·.1.same (.single (.text key) 0))).map fun e =>
    match e.2 with
    | .single v _ => v
    | r => doc.store.value r

theorem get?_eq_glance (doc : Yaml.Document) : doc.get? = glance doc := by
  funext key
  unfold Yaml.Document.get? glance
  cases doc.entries? with
  | none => rfl
  | some entries =>
    dsimp only [Option.getD_some]
    congr 1
    funext e
    cases e.2 with
    | single v n => simp [Yaml.Store.value, Yaml.Store.valueFrom]
    | _ => rfl

/-- A project with a settings file of one line. -/
def lineDisk (line : String) : Disk :=
  ⟨[(["p"], .directory), (["p", "docgen.yaml"], .file (Text.encode line))]⟩

def lineDocument (line : String) : Yaml.Document :=
  (Yaml.Document.ofSource (.ofBytes (Text.encode line))).toOption.getD .nothing

theorem holds_line {line : String}
    (hread : (Yaml.Document.ofSource (.ofBytes (Text.encode line))).isOk = true) :
    Holds (lineDisk line) ["p"] ["p"] none (lineDocument line) := by
  refine ⟨Text.encode line, rfl, ?_⟩
  unfold lineDocument
  cases hdoc : Yaml.Document.ofSource (.ofBytes (Text.encode line)) with
  | ok doc => rfl
  | error e =>
    rw [hdoc] at hread
    cases hread

theorem load_line {line : String}
    (hread : (Yaml.Document.ofSource (.ofBytes (Text.encode line))).isOk = true)
    (hmap : unmapped (lineDocument line) = false)
    (hfault : firstFault (glance (lineDocument line)) = none) :
    load (lineDisk line) ["p"] ["p"] none none = .ok (taken ["p"] (glance (lineDocument line))) := by
  rw [← get?_eq_glance] at hfault ⊢
  exact (load_eq_ok (holds_line hread)).mpr
    ⟨by simp [hmap], firstFault_eq_none.mp hfault, rfl⟩

theorem a_number_is_no_pattern :
    Holds (lineDisk "include: 3\n") ["p"] ["p"] none (lineDocument "include: 3\n") ∧
    ∃ e, load (lineDisk "include: 3\n") ["p"] ["p"] none none = .error e ∧ e.aboutForm = true := by
  have h : Holds (lineDisk "include: 3\n") ["p"] ["p"] none (lineDocument "include: 3\n") :=
    holds_line (by decide +kernel)
  refine ⟨h, ?_⟩
  obtain ⟨hok, -, herror, -⟩ := @files_are_refused_for_patterns_and_paths _ _ _ _ none _ h
  cases hload : load (lineDisk "include: 3\n") ["p"] ["p"] none none with
  | ok s =>
    have haccepted := ((hok s).mp hload).2.1
    rw [get?_eq_glance] at haccepted
    exact absurd (haccepted.checked ("include", .patterns) (by decide) (.inl rfl)) (by decide +kernel)
  | error e =>
    refine ⟨e, rfl, (herror e hload).resolve_right ?_⟩
    rintro ⟨-, hlong⟩
    rw [get?_eq_glance] at hlong
    exact absurd hlong (by decide +kernel)

/-- A word in quotes turns a switch on, and a name that is null is the word for it. -/
theorem values_of_another_form_can_be_taken :
    (¬ Shaped (lineDocument "strict: 'no'\n").get? ∧
      ∃ s, load (lineDisk "strict: 'no'\n") ["p"] ["p"] none none = .ok s ∧ s.strict = true) ∧
    (lineDocument "meta_filename: null\n").get? "meta_filename" = some .null ∧
      ∃ s, load (lineDisk "meta_filename: null\n") ["p"] ["p"] none none = .ok s ∧
        s.metaName = "None" := by
  refine ⟨⟨fun h => ?_, _, load_line (by decide +kernel) (by decide +kernel) (by decide +kernel),
    by decide +kernel⟩, ?_, _, load_line (by decide +kernel) (by decide +kernel) (by decide +kernel),
    by decide +kernel⟩
  · rw [get?_eq_glance] at h
    exact absurd (h ("strict", .switch) (by decide)) (by decide +kernel)
  · rw [get?_eq_glance]
    have hnull : (glance (lineDocument "meta_filename: null\n") "meta_filename").any
        (fun v => Form.place.fits v && Form.switch.fits v) = true := by decide +kernel
    obtain ⟨v, hv, hfits⟩ := (Option.any_eq_true _ _).mp hnull
    rw [Bool.and_eq_true] at hfits
    rw [hv, eq_null_of_fits hfits.1 hfits.2]

end Settings

end Sourcebook
