-- What a file tells does not depend on what was read before it: the list of the selected files is
-- kept from one search to the next, and changes nothing but when it is made.
import Mathlib
import Sourcebook.Proofs.Book.Lines

namespace Sourcebook

/-- The events that change chapters. -/
def Event.telling (es : List Event) : List Event := es.filter (!·.isRemark)

namespace Shelf

variable {a b : Shelf}

/-- What a search gives, with its shelf exchanged. -/
def Found.reshelf (f : Found) (g : Shelf → Shelf) : Found := { f with shelf := g f.shelf }

/-- What a search says, apart from the shelf that it leaves. -/
def Found.answer (f : Found) : Option Path × Option String := (f.path, f.warning)

theorem fileAt_congr (h : a.Alike b) (p : Path) : a.fileAt p = b.fileAt p := by
  unfold fileAt
  rw [h.disk]

theorem amongListed_congr (h : a.Alike b) (target : String) :
    a.amongListed target = b.amongListed target := by
  have hput : ∀ files : List Location, { a with listed := some files } =
      { b with listed := some files } := by
    intro files
    rw [h.disk, h.settings]
  unfold amongListed
  rw [h.list]
  simp only [hput]

theorem find_congr (h : a.Alike b) (target : String) (current : Path) :
    (a.find target current).map Found.answer = (b.find target current).map Found.answer :=
  find_map_congr (congrArg Settings.root h.settings) (fun p _ => fileAt_congr h p) (fun _ => rfl)
    (by rw [amongListed_congr h])

end Shelf

namespace FileState

/-- The same state with another shelf. -/
def onShelf (s : FileState) (shelf : Shelf) : FileState := { s with shelf := shelf }

theorem onShelf_ofFile (a b : Shelf) (source : Location) :
    (ofFile a source).onShelf b = ofFile b source := by
  simp only [onShelf, ofFile]

/-- Two steps that tell the same and leave the same, but for the shelf. -/
structure Step.Alike (x y : Step) : Prop where
  events : Event.telling y.events = Event.telling x.events
  error : y.error = x.error
  state : ∃ shelf, y.state = x.state.onShelf shelf

variable {s : FileState} {shelf : Shelf} {n : Nat}

/-- A step that does not look at the shelf. -/
theorem Step.Alike.of_eq {x y : Step} (h : y = { x with state := x.state.onShelf shelf }) :
    Step.Alike x y := by
  subst h
  exact ⟨rfl, rfl, shelf, rfl⟩

theorem rank_onShelf (s : FileState) (shelf : Shelf) (n : Nat) (raw : List Char) :
    (s.onShelf shelf).rank n raw =
      { s.rank n raw with state := (s.rank n raw).state.onShelf shelf } := by
  obtain ⟨source, language, own, chapter, heading, capture⟩ := s
  unfold rank onShelf
  cases chapter with
  | none => rfl
  | some c =>
    dsimp only
    split <;> rfl

theorem enter_onShelf (s : FileState) (shelf : Shelf) (n : Nat) (title : String) :
    (s.onShelf shelf).enter n title =
      { s.enter n title with state := (s.enter n title).state.onShelf shelf } := by
  obtain ⟨source, language, own, chapter, heading, capture⟩ := s
  unfold enter onShelf
  cases chapter <;> rfl

theorem finish_onShelf (s : FileState) (shelf : Shelf) (n : Nat) (id : String) :
    (s.onShelf shelf).finish n id =
      { s.finish n id with state := (s.finish n id).state.onShelf shelf } := by
  obtain ⟨source, language, own, chapter, heading, capture⟩ := s
  unfold finish onShelf
  cases capture with
  | none => rfl
  | some open' =>
    dsimp only
    split <;> rfl

theorem capturePlain_onShelf (s : FileState) (shelf : Shelf) (line : List Char) :
    (s.onShelf shelf).capturePlain line = (s.capturePlain line).onShelf shelf := by
  obtain ⟨source, language, own, chapter, heading, capture⟩ := s
  unfold capturePlain onShelf
  cases capture with
  | none => rfl
  | some open' =>
    dsimp only
    split <;> rfl

/-! ## Another shelf for every line -/

/-- The same state with its shelf exchanged. -/
def reshelf (s : FileState) (g : Shelf → Shelf) : FileState := s.onShelf (g s.shelf)

def Step.reshelf (x : Step) (g : Shelf → Shelf) : Step := { x with state := x.state.reshelf g }

/-- Only the search for an include looks at the shelf. -/
theorem embed_reshelf {g : Shelf → Shelf} {target : String} {raw : Option String}
    (hin : ∀ c, s.chapter = some c →
      (s.closed.reshelf g).embedIn n c target raw = (s.closed.embedIn n c target raw).reshelf g) :
    (s.reshelf g).embed n target raw = (s.embed n target raw).reshelf g := by
  unfold embed
  dsimp only
  rw [show (s.reshelf g).closing n = s.closing n from rfl,
    show (s.reshelf g).closed = s.closed.reshelf g from rfl,
    show (s.closed.reshelf g).chapter = s.chapter from rfl,
    show s.closed.chapter = s.chapter from rfl]
  cases hc : s.chapter with
  | none => rfl
  | some c =>
    dsimp only
    rw [hin c hc]
    rfl

/-- What is embedded depends on the text of the file that was found. -/
theorem embedFound_congr {shelf other : Shelf} {path : Path}
    (h : (shelf.disk.read path).map Text.decodeFile = (other.disk.read path).map Text.decodeFile)
    (n : Nat) (c target : String) (options : IncludeOptions) :
    (s.onShelf shelf).embedFound n c target path options =
      (s.onShelf other).embedFound n c target path options := by
  unfold embedFound onShelf
  dsimp only
  cases hx : shelf.disk.read path with
  | error t =>
    cases hy : other.disk.read path with
    | error t' =>
      rw [hx, hy] at h
      cases h
      rfl
    | ok bytes =>
      rw [hx, hy] at h
      cases h
  | ok bytes =>
    cases hy : other.disk.read path with
    | error t =>
      rw [hx, hy] at h
      cases h
    | ok bytes' =>
      rw [hx, hy] at h
      dsimp only
      rw [show Text.decodeFile bytes = Text.decodeFile bytes' from Except.ok.inj h]
      rfl

/-- An include does not notice another shelf where the search finds the same file, with the same
text. -/
theorem embedIn_reshelf {g : Shelf → Shelf} {target : String}
    (hlisted : ∀ a : Shelf, (g a).listed = a.listed)
    (hfind : (g s.shelf).find target (Path.ofLocation s.source) =
      (s.shelf.find target (Path.ofLocation s.source)).map (·.reshelf g))
    (hread : ∀ found p, s.shelf.find target (Path.ofLocation s.source) = .ok found →
      found.path = some p →
        ((g found.shelf).disk.read p).map Text.decodeFile =
          (found.shelf.disk.read p).map Text.decodeFile)
    (n : Nat) (c : String) (raw : Option String) :
    (s.reshelf g).embedIn n c target raw = (s.embedIn n c target raw).reshelf g := by
  unfold embedIn
  rw [show (s.reshelf g).optionsOf n raw = s.optionsOf n raw from rfl,
    show (s.reshelf g).shelf = g s.shelf from rfl, show (s.reshelf g).source = s.source from rfl,
    hfind]
  cases hfound : s.shelf.find target (Path.ofLocation s.source) with
  | error e => rfl
  | ok found =>
    have hlist : listing (found.reshelf g).shelf = listing found.shelf :=
      congrArg (fun x => (x.map Event.listed).toList) (hlisted found.shelf)
    simp only [Except.map, hlist]
    rw [show (found.reshelf g).path = found.path from rfl,
      show (found.reshelf g).warning = found.warning from rfl]
    cases hpath : found.path with
    | none => rfl
    | some p =>
      have hembed := embedFound_congr (s := s) (hread found p hfound hpath) n c target
        (s.optionsOf n raw).1
      unfold onShelf at hembed
      exact congrArg (fun es => Step.reshelf (go { s with shelf := found.shelf }
        ((s.optionsOf n raw).2 ++ listing found.shelf
          ++ (found.warning.map (fun w => Event.notice (.warning w))).toList ++ es)) g) hembed

/-- A line does not notice another shelf, unless it is an include that does. -/
theorem readLine_reshelf {g : Shelf → Shelf} {line : List Char}
    (hembed : ∀ target options, Directive.ofLine line = .embed target options →
      (s.reshelf g).embed n (String.ofList target) (options.map String.ofList) =
        (s.embed n (String.ofList target) (options.map String.ofList)).reshelf g) :
    (s.reshelf g).readLine n line = (s.readLine n line).reshelf g := by
  have hstay : ∀ {x : Step}, x.state.shelf = s.shelf →
      { x with state := x.state.onShelf (g s.shelf) } = x.reshelf g := by
    intro x hx
    unfold Step.reshelf FileState.reshelf
    rw [hx]
  unfold readLine
  cases hline : Directive.ofLine line with
  | declare id title => rfl
  | enter title =>
    refine (s.enter_onShelf (g s.shelf) n _).trans (hstay ?_)
    unfold enter
    cases s.chapter <;> rfl
  | rank raw =>
    refine (s.rank_onShelf (g s.shelf) n _).trans (hstay ?_)
    rw [rank_state]
  | embed target options => exact hembed target options hline
  | start id => rfl
  | finish id =>
    refine (s.finish_onShelf (g s.shelf) n _).trans (hstay ?_)
    unfold finish
    cases s.capture with
    | none => rfl
    | some x =>
      dsimp only
      split <;> rfl
  | ignored => rfl
  | prose => rfl
  | plain =>
    dsimp only
    rw [show (s.reshelf g).capturePlain line = _ from s.capturePlain_onShelf (g s.shelf) line]
    refine hstay (x := go (s.capturePlain line) []) ?_
    unfold capturePlain go
    cases s.capture with
    | none => rfl
    | some x =>
      dsimp only
      split <;> rfl

/-- Lines do not notice another shelf, if none of them does while the reading goes on. -/
theorem readLines_reshelf {g : Shelf → Shelf} {P : FileState → Nat → List (List Char) → Prop}
    (hline : ∀ {s n line rest}, P s n (line :: rest) →
      (s.reshelf g).readLine n line = (s.readLine n line).reshelf g)
    (hnext : ∀ {s n line rest}, P s n (line :: rest) → (s.readLine n line).error = none →
      P (s.readLine n line).state (n + 1) rest)
    {lines : List (List Char)} (h : P s n lines) :
    (s.reshelf g).readLines n lines = s.readLines n lines := by
  induction lines generalizing s n with
  | nil => rfl
  | cons line rest ih =>
    simp only [readLines]
    rw [hline h]
    cases herror : (s.readLine n line).error with
    | some e => simp only [Step.reshelf, herror]
    | none =>
      simp only [Step.reshelf, herror]
      rw [ih (hnext h herror)]

/-! ## Includes -/

theorem telling_of_remarks {es : List Event} (h : ∀ e ∈ es, e.isRemark = true) :
    Event.telling es = [] := by
  unfold Event.telling
  rw [List.filter_eq_nil_iff]
  intro e he
  simp [h e he]

theorem telling_append (es fs : List Event) :
    Event.telling (es ++ fs) = Event.telling es ++ Event.telling fs :=
  List.filter_append es fs

theorem telling_news (complaints : List Event) (hc : ∀ e ∈ complaints, e.isRemark = true)
    (shelf : Shelf) (warning : Option String) :
    Event.telling (complaints ++ listing shelf
      ++ (warning.map (fun w => Event.notice (.warning w))).toList) = [] := by
  refine telling_of_remarks fun e he => ?_
  rcases List.mem_append.mp he with he | he
  · rcases List.mem_append.mp he with he | he
    · exact hc e he
    · unfold listing at he
      obtain ⟨files, -, rfl⟩ := Option.map_eq_some_iff.mp (Option.mem_toList.mp he)
      rfl
  · obtain ⟨w, -, rfl⟩ := Option.map_eq_some_iff.mp (Option.mem_toList.mp he)
    rfl

theorem optionsOf_remarks (s : FileState) (n : Nat) (raw : Option String) :
    ∀ e ∈ (s.optionsOf n raw).2, e.isRemark = true := by
  intro e he
  unfold optionsOf at he
  split at he
  · cases he
  · rw [List.mem_singleton.mp he]
    rfl

theorem embedIn_alike (h : s.shelf.Alike shelf) (n : Nat) (c target : String)
    (raw : Option String) :
    Step.Alike (s.embedIn n c target raw) ((s.onShelf shelf).embedIn n c target raw) := by
  have hfind := Shelf.find_congr h target (Path.ofLocation s.source)
  unfold embedIn
  dsimp only
  rw [show (s.onShelf shelf).optionsOf n raw = s.optionsOf n raw from rfl,
    show (s.onShelf shelf).shelf = shelf from rfl, show (s.onShelf shelf).source = s.source from rfl]
  have hremarks := s.optionsOf_remarks n raw
  generalize s.optionsOf n raw = options at hremarks
  cases hx : s.shelf.find target (Path.ofLocation s.source) with
  | error e =>
    cases hy : shelf.find target (Path.ofLocation s.source) with
    | error e' =>
      rw [hx, hy] at hfind
      cases hfind
      exact ⟨rfl, rfl, shelf, rfl⟩
    | ok y =>
      rw [hx, hy] at hfind
      cases hfind
  | ok x =>
    cases hy : shelf.find target (Path.ofLocation s.source) with
    | error e' =>
      rw [hx, hy] at hfind
      cases hfind
    | ok y =>
      rw [hx, hy] at hfind
      obtain ⟨hpath, hwarning⟩ := Prod.mk.inj (Except.ok.inj hfind)
      have hdisk : x.shelf.disk = y.shelf.disk :=
        (Shelf.find_alike hx).disk.symm.trans (h.disk.trans (Shelf.find_alike hy).disk)
      simp only
      rw [← hpath]
      cases x.path with
      | none =>
        refine ⟨?_, rfl, y.shelf, rfl⟩
        simp only [go, telling_append, telling_news _ hremarks, List.nil_append]
        rfl
      | some path =>
        refine ⟨?_, rfl, y.shelf, rfl⟩
        simp only [go, telling_append, telling_news _ hremarks, List.nil_append]
        exact congrArg Event.telling (embedFound_congr (by rw [hdisk]) n c target options.1)

theorem embed_alike (h : s.shelf.Alike shelf) (n : Nat) (target : String) (raw : Option String) :
    Step.Alike (s.embed n target raw) ((s.onShelf shelf).embed n target raw) := by
  unfold embed
  dsimp only
  rw [show (s.onShelf shelf).closing n = s.closing n from rfl,
    show (s.onShelf shelf).closed = s.closed.onShelf shelf from rfl,
    show (s.closed.onShelf shelf).chapter = s.closed.chapter from rfl]
  cases s.closed.chapter with
  | none => exact ⟨rfl, rfl, shelf, rfl⟩
  | some c =>
    have hin := embedIn_alike (s := s.closed) h n c target raw
    refine ⟨?_, hin.error, hin.state⟩
    simp only [telling_append]
    rw [hin.events]

/-! ## Lines -/

theorem readLine_alike (h : s.shelf.Alike shelf) (n : Nat) (line : List Char) :
    Step.Alike (s.readLine n line) ((s.onShelf shelf).readLine n line) := by
  unfold readLine
  cases Directive.ofLine line with
  | declare id title => exact ⟨rfl, rfl, shelf, rfl⟩
  | enter title => exact .of_eq (s.enter_onShelf shelf n _)
  | rank raw => exact .of_eq (s.rank_onShelf shelf n _)
  | embed target options => exact embed_alike h n _ _
  | start id => exact ⟨rfl, rfl, shelf, rfl⟩
  | finish id => exact .of_eq (s.finish_onShelf shelf n _)
  | ignored => exact ⟨rfl, rfl, shelf, rfl⟩
  | prose => exact ⟨rfl, rfl, shelf, rfl⟩
  | plain =>
    dsimp only
    rw [capturePlain_onShelf]
    exact ⟨rfl, rfl, shelf, rfl⟩

/-- Lines tell the same whatever is on the shelf, as long as searches find the same. -/
theorem readLines_alike {lines : List (List Char)} (h : s.shelf.Alike shelf) :
    Event.telling ((s.onShelf shelf).readLines n lines).1 = Event.telling (s.readLines n lines).1 ∧
      ((s.onShelf shelf).readLines n lines).2 = (s.readLines n lines).2 := by
  induction lines generalizing s shelf n with
  | nil => exact ⟨rfl, rfl⟩
  | cons line rest ih =>
    have hstep := readLine_alike h n line
    have hshelf := (s.readLine_state n line).2.2
    have hother := ((s.onShelf shelf).readLine_state n line).2.2
    simp only [readLines]
    generalize s.readLine n line = x at hstep hshelf
    generalize (s.onShelf shelf).readLine n line = y at hstep hother
    obtain ⟨hevents, herror, next, hnext⟩ := hstep
    rw [hnext] at hother
    rw [herror, hnext]
    cases x.error with
    | some e => exact ⟨hevents, rfl⟩
    | none =>
      have hnow : x.state.shelf.Alike next := hshelf.symm.trans (h.trans hother)
      have hrest := ih (n := n + 1) hnow
      refine ⟨?_, hrest.2⟩
      simp only [telling_append]
      rw [hevents, hrest.1]

end FileState

/-- What a text at a place tells, on its own. -/
def Event.tellingOf (disk : Disk) (s : Settings) (source : Location) (text : List Char) :
    List Event :=
  Event.telling (Event.ofText ⟨disk, s, none⟩ source text).1

/-- A text tells the same and breaks off at the same place, whatever was listed before. -/
theorem Event.ofText_alike {shelf : Shelf} {disk : Disk} {s : Settings}
    (h : (Shelf.mk disk s none).Alike shelf) (source : Location) (text : List Char) :
    Event.telling (Event.ofText shelf source text).1 = Event.tellingOf disk s source text ∧
      (Event.ofText shelf source text).2 = (Event.ofText ⟨disk, s, none⟩ source text).2 := by
  unfold Event.tellingOf Event.ofText
  rw [← FileState.onShelf_ofFile ⟨disk, s, none⟩ shelf]
  exact FileState.readLines_alike h

end Sourcebook
