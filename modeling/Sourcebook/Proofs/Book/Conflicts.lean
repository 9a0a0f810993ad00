-- Two titles for one chapter: a strict reader stops at the first conflict, with what a lenient
-- reader has at that moment. Where there is no conflict, the two read the same.
import Mathlib
import Sourcebook.Proofs.Book.Readings
import Sourcebook.Proofs.Book.Telling

namespace Sourcebook

namespace Settings

def strictly (s : Settings) : Settings := { s with strict := true }

def leniently (s : Settings) : Settings := { s with strict := false }

end Settings

/-! ## One event -/

namespace Book

variable {b b' : Book} {e : Event}

/-- The conflict of an event with a book, in the words of its report. -/
def conflict? (b : Book) : Event → Option String
  | .declare source line id title =>
    (b.find? id).bind fun c =>
      if conflicts c source title then some (conflictText c source line) else none
  | _ => none

theorem apply_of_free (s : Settings) (h : b.conflict? e = none) :
    ∃ b', b.apply s.strictly e = .ok b' ∧ b.apply s.leniently e = .ok b' := by
  cases e with
  | declare source line id title =>
    simp only [conflict?] at h
    simp only [apply, declare]
    cases hfind : b.find? id with
    | none => exact ⟨_, rfl, rfl⟩
    | some c =>
      have hfree : conflicts c source title = false := by simpa [hfind] using h
      exact ⟨b, by simp [hfree], by simp [hfree]⟩
  | _ => exact ⟨_, rfl, rfl⟩

theorem apply_of_conflict (s : Settings) {text : String} (h : b.conflict? e = some text) :
    b.apply s.strictly e = .error text ∧ b.apply s.leniently e = .ok (b.warn text) := by
  cases e with
  | declare source line id title =>
    simp only [conflict?] at h
    simp only [apply, declare]
    obtain ⟨c, hfind, hc⟩ := Option.bind_eq_some_iff.mp h
    rw [hfind]
    split at hc
    · next hclash =>
      cases hc
      simp [hclash, Settings.strictly, Settings.leniently]
    · cases hc
  | _ => cases h

theorem apply_notes {s : Settings} (h : b.apply s e = .ok b') : b.notices <+: b'.notices := by
  cases e with
  | declare source line id title =>
    rcases declare_ok h with ⟨-, rfl⟩ | ⟨c, -, ⟨-, rfl⟩ | ⟨-, rfl⟩⟩
    · exact List.prefix_refl _
    · exact List.prefix_refl _
    · exact List.prefix_append _ _
  | notice n =>
    cases h
    exact List.prefix_append _ _
  | _ =>
    cases h
    exact List.prefix_refl _

end Book

/-- A conflict that is met: the desk right before it, and its report. -/
structure Conflict where
  before : Desk
  text : String

namespace Desk

variable {d d' : Desk} {s : Settings} {e : Event}

def warn (d : Desk) (text : String) : Desk := { d with book := d.book.warn text }

/-- The notices of one desk come first among those of another. -/
def NotedIn (d d' : Desk) : Prop := d.book.notices <+: d'.book.notices

theorem NotedIn.refl (d : Desk) : d.NotedIn d := List.prefix_refl _

theorem NotedIn.trans {a b c : Desk} (h : a.NotedIn b) (k : b.NotedIn c) : a.NotedIn c :=
  List.IsPrefix.trans h k

theorem notedIn_warn (d : Desk) (text : String) : d.NotedIn (d.warn text) := List.prefix_append _ _

theorem apply_of_free (s : Settings) (h : d.book.conflict? e = none) :
    ∃ d', d.apply s.strictly e = .ok d' ∧ d.apply s.leniently e = .ok d' := by
  obtain ⟨b, hs, hl⟩ := Book.apply_of_free s h
  unfold apply
  rw [hs, hl]
  exact ⟨_, rfl, rfl⟩

theorem apply_of_conflict (s : Settings) {text : String} (h : d.book.conflict? e = some text) :
    d.apply s.strictly e = .error text ∧ d.apply s.leniently e = .ok (d.warn text) := by
  obtain ⟨hs, hl⟩ := Book.apply_of_conflict s h
  unfold apply
  rw [hs, hl]
  cases e with
  | declare source line id title => exact ⟨rfl, rfl⟩
  | _ => cases h

theorem apply_notes (h : d.apply s e = .ok d') : d.NotedIn d' := Book.apply_notes (apply_book h)

/-! ## Two runs -/

/-- A strict and a lenient run of the same readings, and the conflicts that the lenient one
meets. -/
structure Agree {ε : Type} (conflict : String → ε) (strict lenient : Desk × Option ε)
    (met : List Conflict) : Prop where
  /-- The strict run ends with a conflict where the lenient one meets any. -/
  ends_iff : (∃ text, strict.2 = some (conflict text)) ↔ met ≠ []
  /-- Without a conflict the runs leave the same, whatever else breaks them off. -/
  same : met = [] → strict = lenient
  /-- The strict run ends with the first conflict, and leaves what was there right before. -/
  first : ∀ c ∈ met.head?, strict = (c.before, some (conflict c.text))
  /-- No conflict ends the lenient run. -/
  goes_on : ∀ text, lenient.2 ≠ some (conflict text)
  /-- The lenient run reports each conflict behind what was noted right before it. -/
  reported : ∀ c ∈ met, ∃ later,
    lenient.1.book.notices = c.before.book.notices ++ .warning c.text :: later

variable {ε η : Type} {conflict : String → ε} {conflict' : String → η}

theorem Agree.refl {x : Desk × Option ε} (h : ∀ text, x.2 ≠ some (conflict text)) :
    Agree conflict x x [] where
  ends_iff := by simpa using h
  same _ := rfl
  first _ hc := by cases hc
  goes_on := h
  reported _ hc := by cases hc

theorem Agree.met_first {strict lenient : Desk × Option ε} {c : Conflict} {rest : List Conflict}
    (hs : strict = (c.before, some (conflict c.text)))
    (hl : ∀ text, lenient.2 ≠ some (conflict text))
    (hr : ∀ c' ∈ c :: rest, ∃ later,
      lenient.1.book.notices = c'.before.book.notices ++ .warning c'.text :: later) :
    Agree conflict strict lenient (c :: rest) where
  ends_iff := by
    rw [hs]
    exact ⟨fun _ => List.cons_ne_nil _ _, fun _ => ⟨_, rfl⟩⟩
  same h := by cases h
  first c' hc' := by
    cases hc'
    exact hs
  goes_on := hl
  reported := hr

/-- Runs that agree go on to agree, when a conflict is the end of what follows. -/
theorem Agree.andThen {strict lenient : Desk × Option ε} {met more : List Conflict}
    (h : Agree conflict strict lenient met) {f g : Desk × Option ε → Desk × Option η}
    (hend : ∀ d text, f (d, some (conflict text)) = (d, some (conflict' text)))
    (hnoted : lenient.1.NotedIn (g lenient).1)
    (hrest : Agree conflict' (f lenient) (g lenient) more) :
    Agree conflict' (f strict) (g lenient) (met ++ more) := by
  cases met with
  | nil =>
    rw [h.same rfl]
    exact hrest
  | cons c met =>
    refine .met_first ?_ hrest.goes_on fun c' hc' => ?_
    · rw [h.first c rfl, hend]
    · rcases List.mem_append.mp (List.cons_append ▸ hc' : c' ∈ (c :: met) ++ more) with hc' | hc'
      · obtain ⟨later, hlater⟩ := h.reported c' hc'
        obtain ⟨news, hnews⟩ := hnoted
        exact ⟨later ++ news, by rw [← hnews, hlater, List.append_assoc, List.cons_append]⟩
      · exact hrest.reported c' hc'

/-- What is said of errors in one dress is said of them in another. -/
theorem Agree.of_map {f : ε → η} (hf : f.Injective) {strict lenient : Desk × Option ε}
    {met : List Conflict}
    (h : Agree (fun text => f (conflict text)) (strict.1, strict.2.map f)
      (lenient.1, lenient.2.map f) met) : Agree conflict strict lenient met := by
  have hmap : ∀ {x : Option ε} {text : String}, x.map f = some (f (conflict text)) ↔
      x = some (conflict text) := by
    intro x text
    rw [← Option.map_some, (Option.map_injective hf).eq_iff]
  have hpair : ∀ {x y : Desk × Option ε}, (x.1, x.2.map f) = (y.1, y.2.map f) → x = y := by
    intro x y hxy
    obtain ⟨hd, he⟩ := Prod.mk.inj hxy
    exact Prod.ext hd (Option.map_injective hf he)
  refine ⟨?_, fun hm => hpair (h.same hm), fun c hc => hpair (h.first c hc), ?_, h.reported⟩
  · rw [← h.ends_iff]
    simp only [hmap]
  · exact fun text hl => h.goes_on text (hmap.mpr hl)

/-! ## The events of a text -/

/-- The conflicts that events meet on their way, as a lenient reader takes them. -/
def conflicts (s : Settings) (d : Desk) : List Event → List Conflict
  | [] => []
  | e :: rest =>
    ((d.book.conflict? e).map (Conflict.mk d)).toList ++
      match d.apply s.leniently e with
      | .ok d => d.conflicts s rest
      | .error _ => []

theorem applyAll_notes (s : Settings) (d : Desk) (events : List Event) :
    d.NotedIn (d.applyAll s events).1 := by
  induction events generalizing d with
  | nil => exact .refl d
  | cons e rest ih =>
    unfold applyAll
    cases he : d.apply s e with
    | error text => exact .refl d
    | ok d' => exact (apply_notes he).trans (ih d')

theorem applyAll_agree (s : Settings) (d : Desk) (events : List Event) :
    Agree id (d.applyAll s.strictly events) (d.applyAll s.leniently events)
      (d.conflicts s events) := by
  induction events generalizing d with
  | nil => exact .refl fun _ h => nomatch h
  | cons e rest ih =>
    unfold applyAll conflicts
    cases he : d.book.conflict? e with
    | none =>
      obtain ⟨d', hs, hl⟩ := apply_of_free s he
      rw [hs, hl]
      exact ih d'
    | some text =>
      obtain ⟨hs, hl⟩ := apply_of_conflict s he
      have hrest := ih (d.warn text)
      rw [hs, hl]
      refine .met_first rfl hrest.goes_on fun c hc => ?_
      rcases List.mem_cons.mp hc with rfl | hc
      · obtain ⟨later, hlater⟩ := applyAll_notes s.leniently (d.warn text) rest
        refine ⟨later, hlater.symm.trans ?_⟩
        simp [warn, Book.warn, Book.remark]
      · exact hrest.reported c hc

/-! ## Texts -/

variable {disk : Disk}

/-- What becomes of a text when its events are taken. -/
def closeText (source : Location) (stop : Option LookupError) :
    Desk × Option String → Desk × Option ScanError
  | (d, some text) => (d, some (.conflict text))
  | (d, none) =>
    match stop with
    | some e => (d, some (.lookup e))
    | none => ({ d with book := { d.book with files := d.book.files ++ [source] } }, none)

theorem readText_eq (disk : Disk) (s : Settings) (d : Desk) (source : Location) (text : List Char) :
    d.readText disk s source text =
      closeText source (Event.ofText ⟨disk, s, d.listed⟩ source text).2
        (d.applyAll s (Event.ofText ⟨disk, s, d.listed⟩ source text).1) := by
  rcases hread : d.applyAll s (Event.ofText ⟨disk, s, d.listed⟩ source text).1 with ⟨d', _ | words⟩
  · cases hstop : (Event.ofText ⟨disk, s, d.listed⟩ source text).2 <;>
      simp [readText, closeText, hread, hstop]
  · simp [readText, closeText, hread]

theorem closeText_notes (source : Location) (stop : Option LookupError) (x : Desk × Option String) :
    x.1.NotedIn (closeText source stop x).1 := by
  obtain ⟨d, _ | text⟩ := x
  · cases stop <;> exact .refl d
  · exact .refl d

theorem closeText_goes_on (source : Location) (stop : Option LookupError) {x : Desk × Option String}
    (h : ∀ text, x.2 ≠ some text) (text : String) :
    (closeText source stop x).2 ≠ some (.conflict text) := by
  obtain ⟨d, _ | t⟩ := x
  · cases stop <;> exact fun he => nomatch he
  · exact absurd rfl (h t)

/-- The settings that a strict and a lenient reader share decide what a text tells. -/
theorem readText_agree (disk : Disk) (s : Settings) (d : Desk) (source : Location)
    (text : List Char) :
    Agree .conflict (d.readText disk s.strictly source text) (d.readText disk s.leniently source text)
      (d.conflicts s (Event.ofText ⟨disk, s, d.listed⟩ source text).1) := by
  have hs : s.strictly.ReadsAs s := ⟨rfl, rfl, rfl⟩
  have hl : s.leniently.ReadsAs s := ⟨rfl, rfl, rfl⟩
  rw [readText_eq, readText_eq, Event.ofText_congr hs, Event.ofText_congr hl]
  generalize Event.ofText ⟨disk, s, d.listed⟩ source text = told
  have h := applyAll_agree s d told.1
  rw [← List.append_nil (d.conflicts s told.1)]
  exact h.andThen (fun _ _ => rfl) (closeText_notes _ _ _)
    (.refl (closeText_goes_on _ _ h.goes_on))

end Desk

/-! ## Sessions -/

open Desk (FileError)

/-- One reading: a text that is given for a path, or a file. -/
inductive Reading where
  | given (p : Path) (text : List Char)
  | file (p : Path)

namespace Reading

/-- The place and the text of what is read, or why there is none. -/
def opened (disk : Disk) : Reading → Except FileError (Location × List Char)
  | .given p text =>
    if p.hasNull then .error (.scan (.lookup .nullInPath)) else .ok (p.normal [], text)
  | .file p =>
    if p.hasNull then .error (.scan (.lookup .nullInPath))
    else
      match disk.read p with
      | .error t => .error (.trouble t)
      | .ok bytes =>
        match Text.decodeFile bytes with
        | .error u => .error (.undecodable u)
        | .ok text => .ok (p.normal [], text)

/-- The error of a text as the reading shows it. -/
def shown : Reading → ScanError → FileError
  | .given _ _ => .scan
  | .file _ => .ofScan

def read (disk : Disk) (s : Settings) (d : Desk) : Reading → Desk × Option FileError
  | .given p text =>
    let (d, e) := d.readTextAt disk s p text
    (d, e.map .scan)
  | .file p => d.readSource disk s p

/-- The conflicts that one reading meets. -/
def conflicts (disk : Disk) (s : Settings) (d : Desk) (r : Reading) : List Conflict :=
  match r.opened disk with
  | .error _ => []
  | .ok (source, text) => d.conflicts s (Event.ofText ⟨disk, s, d.listed⟩ source text).1

theorem read_eq (disk : Disk) (s : Settings) (d : Desk) (r : Reading) :
    r.read disk s d =
      match r.opened disk with
      | .error e => (d, some e)
      | .ok (source, text) =>
        ((d.readText disk s source text).1, (d.readText disk s source text).2.map r.shown) := by
  cases r with
  | given p text =>
    simp only [read, opened, Desk.readTextAt]
    split <;> rfl
  | file p =>
    simp only [read, opened, Desk.readSource, Desk.readTextAt]
    by_cases hnull : p.hasNull = true
    · simp only [hnull, if_true]
    · simp only [hnull, Bool.false_eq_true, if_false]
      cases disk.read p with
      | error t => rfl
      | ok bytes =>
        dsimp only
        cases Text.decodeFile bytes <;> rfl

theorem shown_conflict (r : Reading) (text : String) :
    r.shown (.conflict text) = .scan (.conflict text) := by
  cases r <;> rfl

theorem eq_conflict_of_shown {r : Reading} {e : ScanError} {text : String}
    (h : r.shown e = .scan (.conflict text)) : e = .conflict text := by
  cases r with
  | given p t => exact FileError.scan.inj h
  | file p =>
    simp only [shown, FileError.ofScan] at h
    split at h
    · cases h
    · cases h
    · exact FileError.scan.inj h

theorem opened_error {disk : Disk} {r : Reading} {e : FileError} (h : r.opened disk = .error e)
    (text : String) : e ≠ .scan (.conflict text) := by
  rintro rfl
  unfold opened at h
  split at h
  · split at h <;> cases h
  · split at h
    · cases h
    · split at h
      · cases h
      · split at h <;> cases h

theorem read_notes (disk : Disk) (s : Settings) (d : Desk) (r : Reading) :
    d.NotedIn (r.read disk s d).1 := by
  rw [read_eq]
  split
  · exact .refl d
  · rw [Desk.readText_eq]
    exact (Desk.applyAll_notes s d _).trans (Desk.closeText_notes _ _ _)

theorem read_agree (disk : Disk) (s : Settings) (d : Desk) (r : Reading) :
    Desk.Agree (fun text => .scan (.conflict text)) (r.read disk s.strictly d)
      (r.read disk s.leniently d) (r.conflicts disk s d) := by
  rw [read_eq, read_eq]
  unfold conflicts
  cases hr : r.opened disk with
  | error e => exact .refl fun text he => opened_error hr text (Option.some.inj he)
  | ok opened =>
    obtain ⟨source, text⟩ := opened
    have h := Desk.readText_agree disk s d source text
    dsimp only
    rw [← List.append_nil (d.conflicts s _)]
    refine h.andThen (f := fun x => (x.1, x.2.map r.shown)) (g := fun x => (x.1, x.2.map r.shown))
      ?_ (.refl _) (.refl ?_)
    · intro d' text
      exact congrArg (fun e => (d', some e)) (r.shown_conflict text)
    · intro text he
      obtain ⟨e, hlenient, he⟩ := Option.map_eq_some_iff.mp he
      exact h.goes_on text (eq_conflict_of_shown he ▸ hlenient)

end Reading

/-- What a reader does about a reading that breaks off. -/
inductive Response where
  | stop
  | goOn (warning : Option String)

/-- Answers to all that can go wrong but a conflict, which always ends a session. -/
abbrev Policy := Reading → FileError → Response

namespace Policy

variable {disk : Disk} {s : Settings}

def answer (policy : Policy) (r : Reading) : Desk × Option FileError → Desk × Option FileError
  | (d, none) => (d, none)
  | (d, some (.scan (.conflict text))) => (d, some (.scan (.conflict text)))
  | (d, some e) =>
    match policy r e with
    | .stop => (d, some e)
    | .goOn warning => (warning.elim d d.warn, none)

/-- Readings in turn, on one desk. -/
def readAll (policy : Policy) (disk : Disk) (s : Settings) (d : Desk) :
    List Reading → Desk × Option FileError
  | [] => (d, none)
  | r :: rest =>
    match policy.answer r (r.read disk s d) with
    | (d, none) => policy.readAll disk s d rest
    | (d, some e) => (d, some e)

/-- The conflicts of a session, as a lenient reader meets them. -/
def conflicts (policy : Policy) (disk : Disk) (s : Settings) (d : Desk) : List Reading → List Conflict
  | [] => []
  | r :: rest =>
    r.conflicts disk s d ++
      match policy.answer r (r.read disk s.leniently d) with
      | (d, none) => policy.conflicts disk s d rest
      | (_, some _) => []

theorem answer_notes (policy : Policy) (r : Reading) (x : Desk × Option FileError) :
    x.1.NotedIn (policy.answer r x).1 := by
  unfold answer
  split
  · exact .refl _
  · exact .refl _
  · split
    · exact .refl _
    · next warning _ =>
      cases warning with
      | none => exact .refl _
      | some w => exact Desk.notedIn_warn _ w

theorem answer_goes_on (policy : Policy) (r : Reading) {x : Desk × Option FileError}
    (h : ∀ text, x.2 ≠ some (.scan (.conflict text))) (text : String) :
    (policy.answer r x).2 ≠ some (.scan (.conflict text)) := by
  unfold answer
  split
  · exact fun he => nomatch he
  · next t => exact absurd rfl (h t)
  · split
    · exact h text
    · exact fun he => nomatch he

theorem readAll_notes (policy : Policy) (disk : Disk) (s : Settings) (d : Desk) (rs : List Reading) :
    d.NotedIn (policy.readAll disk s d rs).1 := by
  induction rs generalizing d with
  | nil => exact .refl d
  | cons r rest ih =>
    have hfirst := (r.read_notes disk s d).trans (policy.answer_notes r _)
    unfold readAll
    generalize policy.answer r (r.read disk s d) = x at hfirst
    obtain ⟨d', _ | e⟩ := x
    · exact hfirst.trans (ih d')
    · exact hfirst

theorem readAll_agree (policy : Policy) (disk : Disk) (s : Settings) (d : Desk) (rs : List Reading) :
    Desk.Agree (fun text => .scan (.conflict text)) (policy.readAll disk s.strictly d rs)
      (policy.readAll disk s.leniently d rs) (policy.conflicts disk s d rs) := by
  induction rs generalizing d with
  | nil => exact .refl fun _ h => nomatch h
  | cons r rest ih =>
    have h := r.read_agree disk s d
    unfold readAll conflicts
    refine h.andThen
      (f := fun x => match policy.answer r x with
        | (d, none) => policy.readAll disk s.strictly d rest
        | (d, some e) => (d, some e))
      (g := fun x => match policy.answer r x with
        | (d, none) => policy.readAll disk s.leniently d rest
        | (d, some e) => (d, some e)) (fun _ _ => rfl) ?_ ?_
    · have hanswer := policy.answer_notes r (r.read disk s.leniently d)
      generalize policy.answer r (r.read disk s.leniently d) = x at hanswer
      obtain ⟨d', _ | e⟩ := x
      · exact hanswer.trans (readAll_notes policy disk s.leniently d' rest)
      · exact hanswer
    · have hanswer := policy.answer_goes_on r h.goes_on
      generalize policy.answer r (r.read disk s.leniently d) = x at hanswer
      obtain ⟨d', _ | e⟩ := x
      · exact ih d'
      · exact .refl hanswer

/-! ## The files of a project -/

/-- A file that cannot be read to its end is reported, and the next one is read. -/
def skipping : Policy := fun r e =>
  match r, e with
  | .file p, .trouble t => .goOn (some (p.text ++ ": cannot read file: " ++ t.message))
  | .file p, .undecodable u => .goOn (some (p.text ++ ": cannot read file: " ++ u.message))
  | _, _ => .stop

def files (ls : List Location) : List Reading := ls.map fun l => .file (Path.ofLocation l)

/-- The files of a project are read as a session. -/
theorem readAll_skipping (disk : Disk) (s : Settings) (d : Desk) (ls : List Location) :
    skipping.readAll disk s d (files ls) =
      ((d.readSources disk s ls).1, (d.readSources disk s ls).2.map .scan) := by
  induction ls generalizing d with
  | nil => rfl
  | cons l rest ih =>
    unfold files at ih ⊢
    simp only [List.map_cons, readAll, Desk.readSources]
    rw [show (Reading.file (Path.ofLocation l)).read disk s d =
      d.readSource disk s (Path.ofLocation l) from rfl]
    rcases d.readSource disk s (Path.ofLocation l) with ⟨d', _ | e⟩
    · exact ih d'
    · cases e with
      | trouble t => exact ih _
      | undecodable u => exact ih _
      | scan e => cases e <;> rfl

theorem readSources_agree (disk : Disk) (s : Settings) (d : Desk) (ls : List Location) :
    Desk.Agree .conflict (d.readSources disk s.strictly ls) (d.readSources disk s.leniently ls)
      (skipping.conflicts disk s d (files ls)) := by
  refine .of_map (f := FileError.scan) (fun _ _ h => FileError.scan.inj h) ?_
  rw [← readAll_skipping, ← readAll_skipping]
  exact readAll_agree skipping disk s d (files ls)

end Policy

/-- A strict reader ends with a conflict exactly when a lenient reader of the same texts and files
meets one. Without any the two leave the same desk. Otherwise the strict one ends with the report
of the first, and leaves what the lenient one had right before. So it is from any desk on, however
the readings that break off are answered, and for the files of a project. -/
theorem strict_readers_end_at_the_first_conflict (disk : Disk) (s : Settings) :
    (∀ (policy : Policy) (d : Desk) (rs : List Reading),
      Desk.Agree (fun text => .scan (.conflict text)) (policy.readAll disk s.strictly d rs)
        (policy.readAll disk s.leniently d rs) (policy.conflicts disk s d rs)) ∧
    (∀ e, Book.ofProject disk s.strictly = .error e ↔ Book.ofProject disk s.leniently = .error e) ∧
    ∀ files lenient, Book.ofProject disk s.leniently = .ok (files, lenient) →
      ∃ strict, Book.ofProject disk s.strictly = .ok (files, strict) ∧
        Desk.Agree .conflict strict lenient
          (Policy.skipping.conflicts disk s ⟨.empty, some files⟩ (Policy.files files)) := by
  have hfiles : Discovery.files disk s.strictly = Discovery.files disk s.leniently :=
    Discovery.files_congr ⟨rfl, rfl, rfl⟩ disk
  refine ⟨fun policy d rs => policy.readAll_agree disk s d rs, fun e => ?_, ?_⟩
  · rw [Book.ofProject_eq, Book.ofProject_eq, hfiles]
    cases Discovery.files disk s.leniently <;> simp only [Except.map, reduceCtorEq]
  · intro files lenient h
    rw [Book.ofProject_eq] at h
    rw [Book.ofProject_eq, hfiles]
    cases hfound : Discovery.files disk s.leniently with
    | error e =>
      rw [hfound] at h
      cases h
    | ok found =>
      rw [hfound] at h
      obtain ⟨rfl, rfl⟩ := Prod.mk.inj (Except.ok.inj h)
      exact ⟨_, rfl, Policy.readSources_agree disk s ⟨.empty, some found⟩ found⟩

end Sourcebook
