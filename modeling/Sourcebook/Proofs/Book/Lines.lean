-- What one line of an annotated file adds: it declares a chapter, speaks of the chapter that was
-- declared last in the file, or only remarks.
import Mathlib
import Sourcebook.Book.Event
import Sourcebook.Proofs.Book.Seeking

namespace Sourcebook

namespace Event

/-- The chapter that an event speaks of. -/
def about? : Event → Option String
  | .enter chapter _ => some chapter
  | .rank chapter _ => some chapter
  | .prose chapter _ _ => some chapter
  | .code chapter _ _ _ => some chapter
  | _ => none

/-- The event changes no chapter. -/
def isRemark : Event → Bool
  | .notice _ => true
  | .listed _ => true
  | _ => false

end Event

namespace Shelf

/-- Two shelves on which every search finds the same. -/
structure Alike (a b : Shelf) : Prop where
  disk : a.disk = b.disk
  settings : a.settings = b.settings
  list : a.list = b.list

variable {a b c : Shelf}

theorem Alike.refl (a : Shelf) : a.Alike a := ⟨rfl, rfl, rfl⟩

theorem Alike.symm (h : a.Alike b) : b.Alike a := ⟨h.disk.symm, h.settings.symm, h.list.symm⟩

theorem Alike.trans (h : a.Alike b) (k : b.Alike c) : a.Alike c :=
  ⟨h.disk.trans k.disk, h.settings.trans k.settings, h.list.trans k.list⟩

/-- A search leaves the shelf, or puts its list on it. -/
theorem find_alike {target : String} {current : Path} {found : Found}
    (h : a.find target current = .ok found) : a.Alike found.shelf := by
  rcases find_cases h with ⟨x, rfl, -⟩ | h
  · exact .refl a
  · obtain ⟨files, hfiles, hshelf, -⟩ := of_amongListed h
    rw [hshelf]
    exact ⟨rfl, rfl, hfiles⟩

end Shelf

namespace FileState

/-- What a line may add in a file: remarks, the list of the shelf, and what speaks of the chapter
that is known. -/
inductive Fits (s : FileState) : Event → Prop
  | notice (n : Notice) : Fits s (.notice n)
  | listed {files : List Location} : s.shelf.list = .ok files → Fits s (.listed files)
  | about {e : Event} {c : String} : s.chapter = some c → e.about? = some c → Fits s e

/-- Two states of one file in one chapter. -/
structure Same (s t : FileState) : Prop where
  source : t.source = s.source
  chapter : t.chapter = s.chapter
  shelf : s.shelf.Alike t.shelf

variable {s : FileState} {n : Nat} {e : Event}

theorem Same.refl (s : FileState) : Same s s := ⟨rfl, rfl, .refl _⟩

theorem closing_fits (h : e ∈ s.closing n) : Fits s e := by
  unfold closing at h
  split at h
  · cases h
  · split at h
    · rw [List.mem_singleton.mp h]
      exact .notice _
    · next c hc =>
      rw [List.mem_singleton.mp h]
      exact .about hc rfl

theorem start_fits {id : String} (h : e ∈ (s.start n id).events) : Fits s e := by
  unfold start at h
  simp only [go] at h
  split at h
  · cases h
  · rcases List.mem_cons.mp h with rfl | h
    · exact .notice _
    · exact closing_fits h

theorem finish_fits {id : String} (h : e ∈ (s.finish n id).events) : Fits s e := by
  unfold finish at h
  split at h
  · rw [List.mem_singleton.mp h]
    exact .notice _
  · split at h
    · exact closing_fits h
    · rw [List.mem_singleton.mp h]
      exact .notice _

theorem finish_same (s : FileState) (n : Nat) (id : String) : Same s (s.finish n id).state := by
  unfold finish
  split
  · exact .refl s
  · split
    · exact ⟨rfl, rfl, .refl _⟩
    · exact .refl s

theorem rank_fits {raw : List Char} (h : e ∈ (s.rank n raw).events) : Fits s e := by
  unfold rank at h
  split at h
  · rw [List.mem_singleton.mp h]
    exact .notice _
  · next c hc =>
    dsimp only at h
    split at h
    · rw [List.mem_singleton.mp h]
      exact .about hc rfl
    · rcases List.mem_cons.mp h with rfl | h
      · exact .notice _
      · rw [List.mem_singleton.mp h]
        exact .about hc rfl

theorem rank_state (s : FileState) (n : Nat) (raw : List Char) : (s.rank n raw).state = s := by
  unfold rank
  split
  · rfl
  · dsimp only
    split <;> rfl

theorem enter_fits {title : String} (h : e ∈ (s.enter n title).events) : Fits s e := by
  unfold enter at h
  split at h
  · rw [List.mem_singleton.mp h]
    exact .notice _
  · next c hc =>
    rw [List.mem_singleton.mp h]
    exact .about hc rfl

theorem enter_same (s : FileState) (n : Nat) (title : String) : Same s (s.enter n title).state := by
  unfold enter
  split
  · exact .refl s
  · exact ⟨rfl, rfl, .refl _⟩

theorem prose_fits {line : List Char} (h : e ∈ s.prose line) : Fits s e := by
  unfold prose at h
  split at h
  · cases h
  · next c hc =>
    rw [List.mem_singleton.mp h]
    exact .about hc rfl

theorem capturePlain_same (s : FileState) (line : List Char) : Same s (s.capturePlain line) := by
  unfold capturePlain
  split
  · exact .refl s
  · split
    · exact .refl s
    · exact ⟨rfl, rfl, .refl _⟩

/-! ## Includes -/

theorem optionsOf_fits {raw : Option String} (h : e ∈ (s.optionsOf n raw).2) : Fits s e := by
  unfold optionsOf at h
  split at h
  · cases h
  · rw [List.mem_singleton.mp h]
    exact .notice _

theorem embedFound_fits {c target : String} {path : Path} {options : IncludeOptions}
    (hc : s.chapter = some c) (h : e ∈ s.embedFound n c target path options) : Fits s e := by
  unfold embedFound at h
  dsimp only at h
  split at h
  · rw [List.mem_singleton.mp h]
    exact .notice _
  · split at h
    · rw [List.mem_singleton.mp h]
      exact .notice _
    · rw [List.mem_singleton.mp h]
      exact .about hc rfl

theorem listing_fits {shelf : Shelf} (hs : s.shelf.Alike shelf) (h : e ∈ listing shelf) :
    Fits s e := by
  unfold listing at h
  cases hl : shelf.listed with
  | none => simp [hl] at h
  | some files =>
    rw [hl] at h
    rw [List.mem_singleton.mp h]
    refine .listed ?_
    rw [hs.list, Shelf.list, hl]

theorem embedIn_fits {c target : String} {raw : Option String} (hc : s.chapter = some c)
    (h : e ∈ (s.embedIn n c target raw).events) : Fits s e := by
  unfold embedIn at h
  dsimp only at h
  split at h
  · exact optionsOf_fits h
  · next found hfound =>
    have hnews : e ∈ (s.optionsOf n raw).2 ++ listing found.shelf
        ++ (found.warning.map (fun w => Event.notice (.warning w))).toList → Fits s e := by
      intro he
      rcases List.mem_append.mp he with he | he
      · rcases List.mem_append.mp he with he | he
        · exact optionsOf_fits he
        · exact listing_fits (Shelf.find_alike hfound) he
      · cases hw : found.warning with
        | none => simp [hw] at he
        | some w =>
          rw [hw] at he
          rw [List.mem_singleton.mp he]
          exact .notice _
    split at h
    · rcases List.mem_append.mp h with h | h
      · exact hnews h
      · rw [List.mem_singleton.mp h]
        exact .notice _
    · rcases List.mem_append.mp h with h | h
      · exact hnews h
      · cases embedFound_fits (s := { s with shelf := found.shelf }) hc h with
        | notice m => exact .notice m
        | listed hl => exact .listed ((Shelf.find_alike hfound).list.trans hl)
        | about hc he => exact .about hc he

theorem embedIn_same (s : FileState) (n : Nat) (c target : String) (raw : Option String) :
    Same s (s.embedIn n c target raw).state := by
  unfold embedIn
  dsimp only
  split
  · exact .refl s
  · next found hfound =>
    split
    · exact ⟨rfl, rfl, Shelf.find_alike hfound⟩
    · exact ⟨rfl, rfl, Shelf.find_alike hfound⟩

theorem embed_fits {target : String} {raw : Option String}
    (h : e ∈ (s.embed n target raw).events) : Fits s e := by
  unfold embed at h
  dsimp only at h
  split at h
  · rcases List.mem_append.mp h with h | h
    · exact closing_fits h
    · rw [List.mem_singleton.mp h]
      exact .notice _
  · next c hc =>
    rcases List.mem_append.mp h with h | h
    · exact closing_fits h
    · cases embedIn_fits (s := s.closed) hc h with
      | notice m => exact .notice m
      | listed hl => exact .listed hl
      | about hc he => exact .about hc he

theorem embed_same (s : FileState) (n : Nat) (target : String) (raw : Option String) :
    Same s (s.embed n target raw).state := by
  unfold embed
  dsimp only
  split
  · exact ⟨rfl, rfl, .refl _⟩
  · next c _ =>
    have h := s.closed.embedIn_same n c target raw
    exact ⟨h.source, h.chapter, h.shelf⟩

/-! ## The whole line -/

/-- The chapter that is known after a line. -/
def chapterAfter (s : FileState) (line : List Char) : Option String :=
  match Directive.ofLine line with
  | .declare id _ => some (String.ofList id)
  | _ => s.chapter

theorem readLine_fits {line : List Char} (h : e ∈ (s.readLine n line).events) :
    (∃ id title, Directive.ofLine line = .declare id title ∧
      e = .declare s.source n (String.ofList id) (String.ofList title)) ∨ Fits s e := by
  unfold readLine at h
  split at h
  · next id title hd => exact Or.inl ⟨id, title, hd, List.mem_singleton.mp h⟩
  · exact Or.inr (enter_fits h)
  · exact Or.inr (rank_fits h)
  · exact Or.inr (embed_fits h)
  · exact Or.inr (start_fits h)
  · exact Or.inr (finish_fits h)
  · cases h
  · exact Or.inr (prose_fits h)
  · cases h

/-- A line stays in its file and on its shelf, and only a declaration leads to another chapter. -/
theorem readLine_state (s : FileState) (n : Nat) (line : List Char) :
    let t := (s.readLine n line).state
    t.source = s.source ∧ t.chapter = s.chapterAfter line ∧ s.shelf.Alike t.shelf := by
  have hsame : ∀ {t : FileState}, Same s t →
      t.source = s.source ∧ t.chapter = s.chapter ∧ s.shelf.Alike t.shelf :=
    fun h => ⟨h.source, h.chapter, h.shelf⟩
  unfold readLine chapterAfter
  cases Directive.ofLine line with
  | declare id title => exact ⟨rfl, rfl, .refl _⟩
  | enter title => exact hsame (s.enter_same n _)
  | rank raw =>
    dsimp only
    rw [rank_state]
    exact hsame (.refl s)
  | embed target options => exact hsame (s.embed_same n _ _)
  | start id => exact ⟨rfl, rfl, .refl _⟩
  | finish id => exact hsame (s.finish_same n _)
  | ignored => exact hsame (.refl s)
  | prose => exact hsame (.refl s)
  | plain => exact hsame (s.capturePlain_same line)

/-- The state behind lines that are numbered from a number on. -/
def after (s : FileState) (n : Nat) : List (List Char) → FileState
  | [] => s
  | line :: rest => (s.readLine n line).state.after (n + 1) rest

@[simp] theorem after_nil (s : FileState) (n : Nat) : s.after n [] = s := rfl

@[simp] theorem after_cons (s : FileState) (n : Nat) (line : List Char) (rest : List (List Char)) :
    s.after n (line :: rest) = (s.readLine n line).state.after (n + 1) rest := rfl

end FileState

/-! ## Directives -/

namespace Directive

variable {s : List Char} {d : Directive}

/-- A declaration has an identifier of the characters that may stand in one. -/
theorem eq_declare_of_chapter? (h : chapter? s = some d) :
    ∃ id title, d = .declare id title ∧ ∀ c ∈ id, isIdChar c = true := by
  unfold chapter? at h
  obtain ⟨r, -, h⟩ := Option.bind_eq_some_iff.mp h
  split at h
  · dsimp only at h
    split at h
    · cases h
    · split at h
      · split at h
        · cases h
        · split at h
          · cases h
          · cases h
            exact ⟨_, _, rfl, fun c hc => List.mem_takeWhile_imp hc⟩
      · cases h
  · cases h

theorem eq_enter_of_section? (h : section? s = some d) : ∃ title, d = .enter title := by
  unfold section? at h
  obtain ⟨r, -, h⟩ := Option.bind_eq_some_iff.mp h
  split at h
  · obtain ⟨title, -, rfl⟩ := Option.map_eq_some_iff.mp h
    exact ⟨title, rfl⟩
  · cases h

theorem eq_embed_of_include? (h : include? s = some d) : ∃ target options, d = .embed target options := by
  unfold include? at h
  obtain ⟨r, -, h⟩ := Option.bind_eq_some_iff.mp h
  split at h
  · dsimp only at h
    split at h
    · split at h
      · cases h
      · cases h
        exact ⟨_, _, rfl⟩
    · cases h
  · cases h

/-- What a trimmed line is read from: the first form that fits, or else a mark, prose or a plain
line. -/
inductive Form (s : List Char) : Directive → Prop
  | declare {id title : List Char} : chapter? s = some (.declare id title) → Form s (.declare id title)
  | enter {title : List Char} : section? s = some (.enter title) → Form s (.enter title)
  | rank {raw : List Char} : priority? s = some (.rank raw) → Form s (.rank raw)
  | embed {target : List Char} {options : Option (List Char)} :
      include? s = some (.embed target options) → Form s (.embed target options)
  | start {id : List Char} : start? s = some (.start id) → Form s (.start id)
  | finish {id : List Char} : finish? s = some (.finish id) → Form s (.finish id)
  | ignored : Form s .ignored
  | prose : Form s .prose
  | plain : Form s .plain

theorem form_ofTrimmed (s : List Char) : Form s (ofTrimmed s) := by
  unfold ofTrimmed
  cases hform : (chapter? s).or ((section? s).or ((priority? s).or ((include? s).or
      ((start? s).or (finish? s))))) with
  | none =>
    rw [Option.getD_none]
    split
    · exact .ignored
    · split
      · exact .prose
      · exact .plain
  | some d =>
    rw [Option.getD_some]
    simp only [Option.or_eq_some_iff] at hform
    rcases hform with h | ⟨-, h | ⟨-, h | ⟨-, h | ⟨-, h | ⟨-, h⟩⟩⟩⟩⟩
    · obtain ⟨id, title, rfl, -⟩ := eq_declare_of_chapter? h
      exact .declare h
    · obtain ⟨title, rfl⟩ := eq_enter_of_section? h
      exact .enter h
    · obtain ⟨raw, -, rfl⟩ := Option.map_eq_some_iff.mp h
      exact .rank h
    · obtain ⟨target, options, rfl⟩ := eq_embed_of_include? h
      exact .embed h
    · obtain ⟨id, -, rfl⟩ := Option.map_eq_some_iff.mp h
      exact .start h
    · obtain ⟨id, -, rfl⟩ := Option.map_eq_some_iff.mp h
      exact .finish h

theorem form_of_ofLine {line : List Char} {d : Directive} (h : ofLine line = d) :
    Form (Text.trim line) d := h ▸ form_ofTrimmed _

/-- Only a line in the form of a declaration declares. -/
theorem chapter?_of_declare {id title : List Char} (h : ofTrimmed s = .declare id title) :
    chapter? s = some (.declare id title) := by
  have hform := form_ofTrimmed s
  rw [h] at hform
  cases hform with
  | declare hchapter => exact hchapter

/-- An identifier has no slash. -/
theorem slash_of_declare {line id title : List Char} (h : ofLine line = .declare id title) :
    '/' ∉ (String.ofList id).toList := by
  obtain ⟨_, _, he, hchars⟩ := eq_declare_of_chapter? (chapter?_of_declare h)
  cases he
  rw [String.toList_ofList]
  intro hs
  have hchar := hchars _ hs
  revert hchar
  decide

end Directive

end Sourcebook
