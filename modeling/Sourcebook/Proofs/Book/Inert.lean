-- Lines that leave no trace in the chapters: what cannot be found or read, what closes nothing, what
-- is left out, and what comes before the first chapter. A text without such a line makes the same
-- chapters. The numbers of the lines behind it change, and only remarks hold them.
import Mathlib
import Sourcebook.Book.Basic
import Sourcebook.Proofs.Book.Snippets
import Sourcebook.Proofs.Text.Pieces

namespace Sourcebook

/-! ## What is told, whatever the numbers of the lines -/

namespace Event

/-- The event without the number of its line. -/
def unnumbered : Event → Event
  | .declare source _ id title => .declare source 0 id title
  | e => e

/-- What events do to chapters. -/
def told (es : List Event) : List Event := (telling es).map unnumbered

theorem told_append (es fs : List Event) : told (es ++ fs) = told es ++ told fs := by
  unfold told telling
  rw [List.filter_append, List.map_append]

theorem told_of_remarks {es : List Event} (h : ∀ e ∈ es, e.isRemark = true) : told es = [] := by
  rw [told, FileState.telling_of_remarks h, List.map_nil]

end Event

namespace FileState

variable {s : FileState}

/-- Two steps that do the same to chapters and leave the same. -/
structure Step.TellsAs (x y : Step) : Prop where
  events : Event.told x.events = Event.told y.events
  error : x.error = y.error
  state : x.state = y.state

theorem Step.TellsAs.refl (x : Step) : Step.TellsAs x x := ⟨rfl, rfl, rfl⟩

theorem closing_told_as (s : FileState) (n m : Nat) :
    Event.told (s.closing n) = Event.told (s.closing m) := by
  unfold closing
  split
  · rfl
  · split <;> rfl

theorem start_tellsAs (s : FileState) (n m : Nat) (id : String) :
    Step.TellsAs (s.start n id) (s.start m id) := by
  unfold start go
  refine ⟨?_, rfl, rfl⟩
  dsimp only
  split
  · rfl
  · exact s.closing_told_as n m

theorem finish_tellsAs (s : FileState) (n m : Nat) (id : String) :
    Step.TellsAs (s.finish n id) (s.finish m id) := by
  unfold finish go
  split
  · exact ⟨rfl, rfl, rfl⟩
  · split
    · exact ⟨s.closing_told_as n m, rfl, rfl⟩
    · exact ⟨rfl, rfl, rfl⟩

theorem rank_tellsAs (s : FileState) (n m : Nat) (raw : List Char) :
    Step.TellsAs (s.rank n raw) (s.rank m raw) := by
  unfold rank go
  split
  · exact ⟨rfl, rfl, rfl⟩
  · dsimp only
    split <;> exact ⟨rfl, rfl, rfl⟩

theorem enter_tellsAs (s : FileState) (n m : Nat) (title : String) :
    Step.TellsAs (s.enter n title) (s.enter m title) := by
  unfold enter go
  split <;> exact ⟨rfl, rfl, rfl⟩

theorem embedFound_told_as (s : FileState) (n m : Nat) (c target : String) (path : Path)
    (options : IncludeOptions) :
    Event.told (s.embedFound n c target path options) =
      Event.told (s.embedFound m c target path options) := by
  unfold embedFound
  dsimp only
  split
  · rfl
  · split <;> rfl

/-- What a search brings up before its result is not told. -/
theorem told_behind_news (s : FileState) (n : Nat) (raw : Option String) (shelf : Shelf)
    (warning : Option String) (es : List Event) :
    Event.told ((s.optionsOf n raw).2 ++ listing shelf
      ++ (warning.map (fun w => Event.notice (.warning w))).toList ++ es) = Event.told es := by
  rw [Event.told_append, Event.told, telling_news _ (s.optionsOf_remarks n raw), List.map_nil,
    List.nil_append]

theorem optionsOf_fst (s : FileState) (n m : Nat) (raw : Option String) :
    (s.optionsOf n raw).1 = (s.optionsOf m raw).1 := by
  unfold optionsOf
  split <;> rfl

theorem embedIn_tellsAs (s : FileState) (n m : Nat) (c target : String) (raw : Option String) :
    Step.TellsAs (s.embedIn n c target raw) (s.embedIn m c target raw) := by
  unfold embedIn
  dsimp only
  split
  · refine ⟨?_, rfl, rfl⟩
    rw [Event.told_of_remarks (s.optionsOf_remarks n raw),
      Event.told_of_remarks (s.optionsOf_remarks m raw)]
  · split
    · refine ⟨?_, rfl, rfl⟩
      simp only [go, told_behind_news]
      rfl
    · refine ⟨?_, rfl, rfl⟩
      simp only [go, told_behind_news, s.optionsOf_fst n m]
      exact embedFound_told_as _ n m _ _ _ _

theorem embed_tellsAs (s : FileState) (n m : Nat) (target : String) (raw : Option String) :
    Step.TellsAs (s.embed n target raw) (s.embed m target raw) := by
  unfold embed
  dsimp only
  split
  · refine ⟨?_, rfl, rfl⟩
    simp only [go, Event.told_append, s.closing_told_as n m]
    rfl
  · next c _ =>
    have hin := s.closed.embedIn_tellsAs n m c target raw
    refine ⟨?_, hin.error, hin.state⟩
    simp only [Event.told_append, s.closing_told_as n m, hin.events]

/-- The number of a line is not told. -/
theorem readLine_tellsAs (s : FileState) (n m : Nat) (line : List Char) :
    Step.TellsAs (s.readLine n line) (s.readLine m line) := by
  unfold readLine
  split
  · exact ⟨rfl, rfl, rfl⟩
  · exact s.enter_tellsAs n m _
  · exact s.rank_tellsAs n m _
  · exact s.embed_tellsAs n m _ _
  · exact s.start_tellsAs n m _
  · exact s.finish_tellsAs n m _
  · exact .refl _
  · exact .refl _
  · exact .refl _

theorem readLines_told_as (s : FileState) (n m : Nat) (lines : List (List Char)) :
    Event.told (s.readLines n lines).1 = Event.told (s.readLines m lines).1 ∧
      (s.readLines n lines).2 = (s.readLines m lines).2 := by
  induction lines generalizing s n m with
  | nil => exact ⟨s.closing_told_as _ _, rfl⟩
  | cons line rest ih =>
    have hstep := s.readLine_tellsAs n m line
    simp only [readLines]
    rw [hstep.error, hstep.state]
    split
    · exact ⟨hstep.events, rfl⟩
    · obtain ⟨hevents, herror⟩ := ih (s.readLine m line).state (n + 1) (m + 1)
      refine ⟨?_, herror⟩
      simp only [Event.told_append, hstep.events, hevents]

/-! ## Lines without a trace -/

/-- The search for an include brings no text: it finds no file, or one that cannot be read. -/
def Misses (s : FileState) (target : String) : Prop :=
  ∃ found, s.shelf.find target (Path.ofLocation s.source) = .ok found ∧
    ∀ path, found.path = some path → ∀ bytes, s.shelf.disk.read path = .ok bytes →
      ∀ content, Text.decodeFile bytes ≠ .ok content

theorem misses_of_path {target : String}
    (h : (s.shelf.find target (Path.ofLocation s.source)).toOption.map (·.path) = some none) :
    s.Misses target := by
  obtain ⟨found, hfound, hpath⟩ := Option.map_eq_some_iff.mp h
  refine ⟨found, ?_, fun path hsome => absurd (hsome.symm.trans hpath) (by simp)⟩
  cases hfind : s.shelf.find target (Path.ofLocation s.source) with
  | error e =>
    rw [hfind] at hfound
    cases hfound
  | ok other =>
    rw [hfind] at hfound
    exact congrArg Except.ok (Option.some.inj hfound)

/-- A line that leaves no trace where it stands. -/
inductive Inert (s : FileState) (line : List Char) : Prop
  | missed {target : List Char} {options : Option (List Char)} :
      Directive.ofLine line = .embed target options → s.capture = none →
      s.Misses (String.ofList target) → Inert s line
  | unmatched {id : List Char} : Directive.ofLine line = .finish id →
      s.capture.map (·.1) ≠ some (String.ofList id) → Inert s line
  | ignored : Directive.ofLine line = .ignored → Inert s line
  | marked : Directive.ofLine line = .plain → Directive.isMarked line = true → Inert s line
  | idle : Directive.ofLine line = .plain → s.capture = none → Inert s line
  | earlySection {title : List Char} : Directive.ofLine line = .enter title → s.chapter = none →
      Inert s line
  | earlyRank {raw : List Char} : Directive.ofLine line = .rank raw → s.chapter = none → Inert s line
  | earlyProse : Directive.ofLine line = .prose → s.chapter = none → Inert s line
  | earlyInclude {target : List Char} {options : Option (List Char)} :
      Directive.ofLine line = .embed target options → s.capture = none → s.chapter = none →
      Inert s line

/-- A step that does nothing to chapters, and leaves what was there but for the list of the shelf. -/
structure Step.Traceless (s : FileState) (x : Step) : Prop where
  events : Event.told x.events = []
  error : x.error = none
  state : ∃ shelf, s.shelf.Alike shelf ∧ x.state = s.onShelf shelf

theorem Step.Traceless.stay {es : List Event} (h : Event.told es = []) :
    Step.Traceless s (go s es) := ⟨h, rfl, s.shelf, .refl _, rfl⟩

theorem closed_of_idle (h : s.capture = none) : s.closed = s := by
  obtain ⟨source, language, shelf, chapter, heading, capture⟩ := s
  subst h
  rfl

theorem embedFound_missed {path : Path} (h : ∀ bytes, s.shelf.disk.read path = .ok bytes →
    ∀ content, Text.decodeFile bytes ≠ .ok content) (n : Nat) (c target : String)
    (options : IncludeOptions) : Event.told (s.embedFound n c target path options) = [] := by
  unfold embedFound
  dsimp only
  split
  · rfl
  · next bytes hbytes =>
    split
    · rfl
    · next content hcontent => exact absurd hcontent (h bytes hbytes content)

theorem embedIn_traceless {target : String} (h : s.Misses target) (n : Nat) (c : String)
    (raw : Option String) : Step.Traceless s (s.embedIn n c target raw) := by
  obtain ⟨found, hfound, hmissed⟩ := h
  have halike := Shelf.find_alike hfound
  unfold embedIn
  dsimp only
  rw [hfound]
  dsimp only
  split
  · refine ⟨?_, rfl, found.shelf, halike, rfl⟩
    simp only [go, told_behind_news]
    rfl
  · next path hpath =>
    refine ⟨?_, rfl, found.shelf, halike, rfl⟩
    simp only [go, told_behind_news]
    refine embedFound_missed (s := { s with shelf := found.shelf }) ?_ n c target _
    dsimp only
    rw [← halike.disk]
    exact hmissed path hpath

theorem embed_traceless {target : String} {raw : Option String} (hidle : s.capture = none)
    (h : s.chapter = none ∨ s.Misses target) (n : Nat) :
    Step.Traceless s (s.embed n target raw) := by
  have hclosing : s.closing n = [] := by
    unfold closing
    rw [hidle]
  unfold embed
  dsimp only
  rw [closed_of_idle hidle, hclosing]
  cases hchapter : s.chapter with
  | none => exact .stay rfl
  | some c =>
    have hmissed : s.Misses target := h.resolve_left (by simp [hchapter])
    exact embedIn_traceless hmissed n c raw

/-- An inert line does nothing to chapters. -/
theorem Inert.readLine {line : List Char} (h : s.Inert line) (n : Nat) :
    Step.Traceless s (s.readLine n line) := by
  unfold FileState.readLine
  cases h with
  | missed hline hidle hmissed =>
    rw [hline]
    exact embed_traceless hidle (Or.inr hmissed) n
  | unmatched hline hother =>
    rw [hline]
    unfold finish
    dsimp only
    split
    · exact .stay rfl
    · next id' kept hopen =>
      rw [if_neg fun hid => hother (by rw [hopen, hid]; rfl)]
      exact .stay rfl
  | ignored hline =>
    rw [hline]
    exact .stay rfl
  | marked hline hmarked =>
    have hsame : s.capturePlain line = s := by
      unfold capturePlain
      split
      · rfl
      · rw [if_pos hmarked]
    rw [hline]
    dsimp only
    rw [hsame]
    exact .stay rfl
  | idle hline hidle =>
    have hsame : s.capturePlain line = s := by
      unfold capturePlain
      rw [hidle]
    rw [hline]
    dsimp only
    rw [hsame]
    exact .stay rfl
  | earlySection hline hearly =>
    rw [hline]
    unfold enter
    rw [hearly]
    exact .stay rfl
  | earlyRank hline hearly =>
    rw [hline]
    unfold rank
    rw [hearly]
    exact .stay rfl
  | earlyProse hline hearly =>
    rw [hline]
    unfold prose
    rw [hearly]
    exact .stay rfl
  | earlyInclude hline hidle hearly =>
    rw [hline]
    exact embed_traceless hidle (Or.inl hearly) n

/-- Lines tell the same without one that is inert where it stands. -/
theorem readLines_without {line : List Char} {before : List (List Char)} {n : Nat}
    (h : (s.after n before).Inert line) (after : List (List Char)) :
    Event.told (s.readLines n (before ++ after)).1 =
        Event.told (s.readLines n (before ++ line :: after)).1 ∧
      (s.readLines n (before ++ after)).2 = (s.readLines n (before ++ line :: after)).2 := by
  induction before generalizing s n with
  | nil =>
    obtain ⟨hevents, herror, shelf, halike, hstate⟩ := h.readLine n
    -- what comes behind the line is read under other numbers, and with the list that it left
    obtain ⟨htelling, hsame⟩ :
        Event.telling ((s.onShelf shelf).readLines (n + 1) after).1 =
            Event.telling (s.readLines (n + 1) after).1 ∧
          ((s.onShelf shelf).readLines (n + 1) after).2 = (s.readLines (n + 1) after).2 :=
      readLines_alike halike
    obtain ⟨htold, hend⟩ := s.readLines_told_as n (n + 1) after
    simp only [List.nil_append, readLines, after_nil] at hevents herror hstate ⊢
    rw [herror, hstate]
    dsimp only
    refine ⟨?_, hend.trans hsame.symm⟩
    rw [Event.told_append, hevents, List.nil_append, htold, Event.told, Event.told, htelling]
  | cons first before ih =>
    simp only [List.cons_append, readLines]
    split
    · exact ⟨rfl, rfl⟩
    · obtain ⟨hevents, herror⟩ := ih h
      refine ⟨?_, herror⟩
      simp only [Event.told_append, hevents]

end FileState

/-! ## What is told decides the chapters -/

namespace Book

variable {s : Settings} {cs : List Chapter} {e : Event}

/-- What an event makes of chapters. A conflict that is an error makes nothing of them. -/
def chaptersAfter (s : Settings) (cs : List Chapter) (e : Event) : Option (List Chapter) :=
  ((Book.mk cs [] []).apply s e).toOption.map Book.chapters

theorem declare_chapters (s : Settings) (b : Book) (source : Location) (line : Nat)
    (id title : String) :
    (b.declare s source line id title).toOption.map Book.chapters =
      match b.chapters.find? (·.id == id) with
      | none => some (b.chapters ++ [newChapter s.root source id title])
      | some c => if conflicts c source title && s.strict then none else some b.chapters := by
  unfold declare find?
  cases b.chapters.find? (·.id == id) with
  | none => rfl
  | some c =>
    dsimp only
    cases conflicts c source title with
    | false => rfl
    | true => cases s.strict <;> rfl

theorem apply_chapters (s : Settings) (b : Book) (e : Event) :
    (b.apply s e).toOption.map Book.chapters = chaptersAfter s b.chapters e := by
  cases e with
  | declare source line id title =>
    exact (declare_chapters s b source line id title).trans
      (declare_chapters s ⟨b.chapters, [], []⟩ source line id title).symm
  | _ => rfl

/-- The number of a line is only a part of a report. -/
theorem chaptersAfter_unnumbered : chaptersAfter s cs e.unnumbered = chaptersAfter s cs e := by
  cases e with
  | declare source line id title =>
    exact (declare_chapters s ⟨cs, [], []⟩ source 0 id title).trans
      (declare_chapters s ⟨cs, [], []⟩ source line id title).symm
  | _ => rfl

theorem chaptersAfter_remark (h : e.isRemark = true) : chaptersAfter s cs e = some cs := by
  cases e with
  | notice n => rfl
  | listed files => rfl
  | _ => cases h

/-- What is told of events is all that they do to chapters. -/
theorem foldlM_told (s : Settings) (cs : List Chapter) (es : List Event) :
    (Event.told es).foldlM (chaptersAfter s) cs = es.foldlM (chaptersAfter s) cs := by
  induction es generalizing cs with
  | nil => rfl
  | cons e es ih =>
    rw [List.foldlM_cons, show e :: es = [e] ++ es from rfl, Event.told_append, List.foldlM_append]
    cases h : e.isRemark with
    | true =>
      rw [Event.told_of_remarks (by simpa using h), chaptersAfter_remark h]
      exact ih cs
    | false =>
      rw [show Event.told [e] = [e.unnumbered] by simp [Event.told, Event.telling, h]]
      simp only [List.foldlM_cons, List.foldlM_nil, chaptersAfter_unnumbered, bind_pure]
      cases chaptersAfter s cs e with
      | none => rfl
      | some cs => exact ih cs

end Book

namespace Desk

variable {s : Settings} {d d' : Desk}

theorem apply_chapters (s : Settings) (d : Desk) (e : Event) :
    (d.apply s e).toOption.map (·.book.chapters) = Book.chaptersAfter s d.book.chapters e := by
  rw [← Book.apply_chapters]
  unfold apply
  cases d.book.apply s e <;> rfl

theorem applyAll_chapters (s : Settings) (d : Desk) (es : List Event) :
    es.foldlM (Book.chaptersAfter s) d.book.chapters =
      if (d.applyAll s es).2 = none then some (d.applyAll s es).1.book.chapters else none := by
  induction es generalizing d with
  | nil => rfl
  | cons e es ih =>
    rw [List.foldlM_cons, ← apply_chapters]
    unfold applyAll
    cases d.apply s e with
    | error text => rfl
    | ok d => exact ih d

/-- Events that tell the same are taken alike, and make the same chapters. -/
theorem applyAll_of_told {es fs : List Event} (h : Event.told fs = Event.told es)
    (hes : d.applyAll s es = (d', none)) :
    ∃ d'', d.applyAll s fs = (d'', none) ∧ d''.book.chapters = d'.book.chapters := by
  have hsame : fs.foldlM (Book.chaptersAfter s) d.book.chapters = some d'.book.chapters := by
    rw [← Book.foldlM_told, h, Book.foldlM_told, applyAll_chapters, hes]
    rfl
  rw [applyAll_chapters] at hsame
  split at hsame
  · next hnone => exact ⟨_, Prod.ext rfl hnone, Option.some.inj hsame⟩
  · cases hsame

end Desk

/-! ## Texts -/

/-- A text of which no line is left is one empty line, which tells nothing. -/
theorem ofText_joinLines (shelf : Shelf) (source : Location) {lines : List (List Char)}
    (h : ∀ line ∈ lines, '\n' ∉ line) :
    let read := (FileState.ofFile shelf source).readLines 1 (lines.map Text.dropReturn)
    Event.told (Event.ofText shelf source (Text.joinLines lines)).1 = Event.told read.1 ∧
      (Event.ofText shelf source (Text.joinLines lines)).2 = read.2 := by
  intro read
  by_cases hnil : lines = []
  · subst hnil
    have hidle : ((FileState.ofFile shelf source).after 1 []).Inert [] := .idle (by decide) rfl
    obtain ⟨htold, herror⟩ := FileState.readLines_without hidle []
    exact ⟨htold.symm, herror.symm⟩
  · have hlines : sourceLines (Text.joinLines lines) = lines.map Text.dropReturn :=
      congrArg (List.map Text.dropReturn) (Text.splitOn_joinWith hnil h)
    unfold Event.ofText
    rw [hlines]
    exact ⟨rfl, rfl⟩

/-- Texts that tell the same are read alike, and make the same chapters. -/
theorem Desk.readText_of_told {disk : Disk} {s : Settings} {d d' : Desk} {source : Location}
    {text other : List Char} (h : d.readText disk s source text = (d', none))
    (htold : Event.told (Event.ofText ⟨disk, s, d.listed⟩ source other).1 =
      Event.told (Event.ofText ⟨disk, s, d.listed⟩ source text).1)
    (hend : (Event.ofText ⟨disk, s, d.listed⟩ source other).2 =
      (Event.ofText ⟨disk, s, d.listed⟩ source text).2) :
    ∃ d'', d.readText disk s source other = (d'', none) ∧ d''.book.chapters = d'.book.chapters := by
  obtain ⟨hstop, last, hlast, hchapters, -⟩ := readText_ok h
  obtain ⟨d'', happly, hsame⟩ := applyAll_of_told htold hlast
  rw [readText_eq, happly, hend.trans hstop]
  exact ⟨_, rfl, hsame.trans hchapters.symm⟩

/-- Scanning goes on as if an inert line were not there: without it the text is read to its end as
well, and makes the same chapters, with the same sections, blocks and priorities. -/
theorem inert_lines_leave_no_trace {disk : Disk} {s : Settings} {d d' : Desk} {p : Path}
    {text line : List Char} {before after : List (List Char)}
    (h : d.readTextAt disk s p text = (d', none))
    (hlines : Text.splitLines text = before ++ line :: after)
    (hinert : ((FileState.ofFile ⟨disk, s, d.listed⟩ (p.normal [])).after 1
      (before.map Text.dropReturn)).Inert (Text.dropReturn line)) :
    ∃ d'', d.readTextAt disk s p (Text.joinLines (before ++ after)) = (d'', none) ∧
      d''.book.chapters = d'.book.chapters := by
  have hpieces : ∀ l ∈ before ++ after, '\n' ∉ l := by
    intro l hl
    refine Text.not_mem_of_mem_splitOn (s := text) ?_
    rw [show Text.splitOn '\n' text = _ from hlines]
    rcases List.mem_append.mp hl with hl | hl
    · exact List.mem_append_left _ hl
    · exact List.mem_append_right _ (List.mem_cons_of_mem _ hl)
  obtain ⟨hjoined, hjoinedEnd⟩ := ofText_joinLines ⟨disk, s, d.listed⟩ (p.normal []) hpieces
  obtain ⟨hwithout, hwithoutEnd⟩ :=
    FileState.readLines_without hinert (after.map Text.dropReturn)
  have hsource : sourceLines text =
      before.map Text.dropReturn ++ Text.dropReturn line :: after.map Text.dropReturn := by
    rw [sourceLines, hlines, List.map_append, List.map_cons]
  rw [List.map_append] at hjoined hjoinedEnd
  rw [← hsource] at hwithout hwithoutEnd
  unfold Desk.readTextAt at h ⊢
  split at h
  · cases h
  · next hnull =>
    rw [if_neg hnull]
    exact Desk.readText_of_told h (hjoined.trans hwithout) (hjoinedEnd.trans hwithoutEnd)

/-- An include that finds nothing, between two lines of prose. -/
def interruptedText : List Char :=
  "/// @chapter: a \"A\"\n/// one\n/// @include: \"./X.sol\"\n/// two".toList

/-- Prose goes on behind an include that finds nothing, in one piece. -/
theorem prose_goes_on_behind_a_missing_include :
    let s := Settings.ofRoot ["p"]
    let p : Path := ⟨.single, ["p", "test", "a.ts"]⟩
    let before := ["/// @chapter: a \"A\"".toList, "/// one".toList]
    let line := "/// @include: \"./X.sol\"".toList
    let after := ["/// two".toList]
    let read := Desk.start.readTextAt ⟨[]⟩ s p interruptedText
    read.2 = none ∧ Text.splitLines interruptedText = before ++ line :: after ∧
    ((FileState.ofFile ⟨⟨[]⟩, s, none⟩ (p.normal [])).after 1
      (before.map Text.dropReturn)).Inert (Text.dropReturn line) ∧
    (∃ d, Desk.start.readTextAt ⟨[]⟩ s p (Text.joinLines (before ++ after)) = (d, none) ∧
      d.book.chapters = read.1.book.chapters) ∧
    read.1.book.chapters.map (·.sections) = [[⟨"Overview", [.prose "one\ntwo"]⟩]] := by
  intro s p before line after read
  have hread : read.2 = none := by decide +kernel
  have hlines : Text.splitLines interruptedText = before ++ line :: after := by decide +kernel
  have hinert : ((FileState.ofFile ⟨⟨[]⟩, s, none⟩ (p.normal [])).after 1
      (before.map Text.dropReturn)).Inert (Text.dropReturn line) := by
    have hline : Directive.ofLine (Text.dropReturn line) = .embed "./X.sol".toList none := by
      decide +kernel
    exact .missed hline (by decide +kernel) (FileState.misses_of_path (by decide +kernel))
  have hreturned : Desk.start.readTextAt ⟨[]⟩ s p interruptedText = (read.1, none) := by
    rw [← hread]
  exact ⟨hread, hlines, hinert, inert_lines_leave_no_trace hreturned hlines hinert,
    by decide +kernel⟩

end Sourcebook
