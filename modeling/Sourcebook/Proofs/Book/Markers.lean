-- Which end closes a snippet. Markers are compared by what is read of their identifiers: the
-- characters that an identifier may have, up to the first that it may not. What is written behind
-- them does not count, so two identifiers that go on in different ways can be the same to a reader.
import Mathlib
import Sourcebook.Book.Basic
import Sourcebook.Proofs.Book.Closing
import Sourcebook.Proofs.Text.Blanks

namespace Sourcebook

namespace Directive

/-! ## Identifiers that are written and identifiers that are read -/

def startName : List Char := "@start:".toList

def endName : List Char := "@end:".toList

/-- A line is a marker with an identifier as it is written: slashes, the name of the marker, and
what follows, up to the next blank or to the end of the line. -/
def Marks (name line a : List Char) : Prop :=
  ∃ gap more rest, Text.trim line = ['/', '/'] ++ (gap ++ (name ++ (more ++ (a ++ rest)))) ∧
    Text.allBlank gap = true ∧ Text.allBlank more = true ∧
    a ≠ [] ∧ a.all (!Text.isBlank ·) = true ∧ rest.head?.all Text.isBlank = true

/-- What is read of an identifier. -/
def legible (a : List Char) : List Char := a.takeWhile isIdChar

theorem isBlank_of_isIdChar {c : Char} (h : isIdChar c = true) : Text.isBlank c = false := by
  have hrange : (97 ≤ c.toNat ∧ c.toNat ≤ 122) ∨ (48 ≤ c.toNat ∧ c.toNat ≤ 57) ∨ c.toNat = 95 ∨
      c.toNat = 45 := by
    simp only [isIdChar, Bool.or_eq_true, Bool.and_eq_true, decide_eq_true_eq] at h
    rcases h with ((⟨h1, h2⟩ | ⟨h1, h2⟩) | rfl) | rfl
    · exact Or.inl ⟨h1, h2⟩
    · exact Or.inr (Or.inl ⟨h1, h2⟩)
    · exact Or.inr (Or.inr (Or.inl rfl))
    · exact Or.inr (Or.inr (Or.inr rfl))
  unfold Text.isBlank
  simp only [Bool.or_eq_false_iff, Bool.and_eq_false_iff, decide_eq_false_iff_not, beq_eq_false_iff_ne]
  omega

/-- Reading stops before a blank does. -/
theorem legible_append {a rest : List Char} (h : rest.head?.all Text.isBlank = true) :
    legible (a ++ rest) = legible a := by
  have hstop : rest.takeWhile isIdChar = [] := by
    cases rest with
    | nil => rfl
    | cons c rest =>
      refine List.takeWhile_cons_of_neg fun hc => ?_
      rw [List.head?_cons, Option.all_some, isBlank_of_isIdChar hc] at h
      cases h
  unfold legible
  rw [List.takeWhile_append, hstop]
  split
  · next hall => rw [List.append_nil, (List.takeWhile_prefix _).eq_of_length hall]
  · rfl

theorem legible_eq_self {a : List Char} : legible a = a ↔ ∀ c ∈ a, isIdChar c = true :=
  List.takeWhile_eq_self_iff

/-- What is read of a marker is what can be read of the identifier that is written. -/
theorem marker?_of_marks {name line a id : List Char} (hname : name.head? = some '@')
    (ha : Marks name line a) (h : marker? name (Text.trim line) = some id) : id = legible a := by
  obtain ⟨gap, more, rest, hline, hgap, hmore, hne, hsolid, hrest⟩ := ha
  have hat : ∀ tail : List Char, Text.trimStart (name ++ tail) = name ++ tail := by
    intro tail
    refine Text.trimStart_of_solid fun c hc => ?_
    rw [List.head?_append, hname] at hc
    cases hc
    rfl
  have hword : Text.trimStart (a ++ rest) = a ++ rest := by
    refine Text.trimStart_of_solid fun c hc => ?_
    rw [List.head?_append_of_ne_nil a hne] at hc
    simpa using List.all_eq_true.mp hsolid c (List.mem_of_mem_head? hc)
  have hafter : afterName ['/', '/'] name (Text.trim line) = some (a ++ rest) := by
    unfold afterName
    rw [hline]
    simp only [expect_append, Text.trimStart_append hgap, hat, Text.trimStart_append hmore, hword,
      Option.bind_eq_bind, Option.bind_some]
    rfl
  unfold marker? at h
  rw [hafter, Option.bind_eq_bind, Option.bind_some] at h
  rw [← legible_append hrest]
  split at h
  · cases h
  · cases h
    rfl

/-- The identifier of a start is what is read of the one that is written. -/
theorem legible_of_start {line a id : List Char} (ha : Marks startName line a)
    (h : ofLine line = .start id) : id = legible a := by
  cases form_of_ofLine h with
  | start hstart =>
    obtain ⟨read, hread, he⟩ := Option.map_eq_some_iff.mp hstart
    cases he
    exact marker?_of_marks rfl ha hread

theorem legible_of_finish {line a id : List Char} (ha : Marks endName line a)
    (h : ofLine line = .finish id) : id = legible a := by
  cases form_of_ofLine h with
  | finish hfinish =>
    obtain ⟨read, hread, he⟩ := Option.map_eq_some_iff.mp hfinish
    cases he
    exact marker?_of_marks rfl ha hread

end Directive

namespace FileState

variable {s : FileState} {n : Nat}

/-- An open snippet stays open behind lines that do not end it, and takes in their code. -/
theorem after_capture {id : String} {kept : List (List Char)} {inner : List (List Char)}
    (hopen : s.capture = some (id, kept)) (hinner : ∀ l ∈ inner, Directive.ends id l = false) :
    (s.after n inner).capture = some (id, kept ++ inner.filter Directive.isCode) := by
  induction inner generalizing s n kept with
  | nil => simpa using hopen
  | cons line inner ih =>
    obtain ⟨hline, hrest⟩ := List.forall_mem_cons.mp hinner
    have hnext : (s.readLine n line).state.capture =
        some (id, if Directive.isCode line then kept ++ [line] else kept) := by
      rw [readLine_capture, hopen]
      cases hd : Directive.ofLine line with
      | start other => rw [ends_of_start hd] at hline; cases hline
      | _ => simp [hline]
    rw [after_cons, ih hnext hrest]
    cases hcode : Directive.isCode line <;> simp [hcode]

/-- An end closes the open snippet when it has its identifier, and otherwise only warns. -/
theorem readLine_finish {line id : List Char} {name : String} {kept : List (List Char)}
    (hline : Directive.ofLine line = .finish id) (hopen : s.capture = some (name, kept)) :
    s.readLine n line =
      if name = String.ofList id then go s.closed (s.closing n)
      else go s [s.warn n ("'@end: " ++ String.ofList id ++ "' does not match the open snippet "
        ++ Text.quotedText name ++ "; ignored")] := by
  unfold readLine finish
  rw [hline, hopen]

end FileState

open Directive (Marks legible startName endName)

/-- A start opens a snippet under what is read of its identifier, and an end that finds it open
closes it exactly when the same is read of both; then what comes of it bears that identifier. An end
of another identifier only warns. Where identifiers are made of nothing but what can be read, they
are compared as they are written. -/
theorem markers_pair_by_what_is_read_of_them (s : FileState) (n m : Nat)
    {first last a b i j : List Char} {inner : List (List Char)}
    (ha : Marks startName first a) (hfirst : Directive.ofLine first = .start i)
    (hb : Marks endName last b) (hlast : Directive.ofLine last = .finish j)
    (hinner : ∀ l ∈ inner, Directive.ends (String.ofList i) l = false) :
    let t := s.after n (first :: inner)
    let kept := inner.filter Directive.isCode
    let step := t.readLine m last
    t.capture = some (String.ofList (legible a), kept) ∧
    (step.state.capture = none ↔ legible a = legible b) ∧
    (legible a = legible b → step.events = t.closing m ∧ ∀ chapter, t.chapter = some chapter →
      t.closing m = [.code chapter t.heading ⟨String.ofList (legible a),
        String.ofList (Snippet.dedent kept), t.language, Location.text t.source, none⟩ none]) ∧
    (legible a ≠ legible b → step = FileState.go t [t.warn m ("'@end: " ++ String.ofList (legible b)
      ++ "' does not match the open snippet " ++ Text.quotedText (String.ofList (legible a))
      ++ "; ignored")]) ∧
    ((∀ c ∈ a, Directive.isIdChar c = true) → (∀ c ∈ b, Directive.isIdChar c = true) →
      legible a = a ∧ (step.state.capture = none ↔ a = b)) := by
  intro t kept step
  obtain rfl : i = legible a := Directive.legible_of_start ha hfirst
  obtain rfl : j = legible b := Directive.legible_of_finish hb hlast
  have hopen : t.capture = some (String.ofList (legible a), kept) := by
    have hstart : (s.readLine n first).state.capture = some (String.ofList (legible a), []) := by
      rw [FileState.readLine_capture, hfirst]
    exact FileState.after_capture hstart hinner
  have hstep := FileState.readLine_finish (n := m) hlast hopen
  have hsame : String.ofList (legible a) = String.ofList (legible b) ↔ legible a = legible b :=
    String.ofList_inj
  have hclosed : step.state.capture = none ↔ legible a = legible b := by
    rw [show step = _ from hstep]
    by_cases h : legible a = legible b
    · simp [FileState.go, FileState.closed, h]
    · simp [FileState.go, hopen, hsame, h]
  refine ⟨hopen, hclosed, fun h => ⟨?_, fun chapter hchapter => ?_⟩, fun h => ?_, fun ha hb => ?_⟩
  · rw [show step = _ from hstep, if_pos (hsame.mpr h)]
    rfl
  · unfold FileState.closing
    rw [hopen, hchapter]
  · rw [show step = _ from hstep, if_neg fun he => h (hsame.mp he)]
  · rw [hclosed, Directive.legible_eq_self.mpr ha, Directive.legible_eq_self.mpr hb]
    exact ⟨rfl, Iff.rfl⟩

/-- A start and an end with the same identifier, around one line of code. -/
theorem markers_of_one_identifier_pair :
    let s := FileState.ofFile ⟨⟨[]⟩, .ofRoot ["p"], none⟩ ["p", "a.ts"]
    let first := "// @start: set-up".toList
    let last := "// @end: set-up".toList
    let id := "set-up".toList
    Marks startName first id ∧ Directive.ofLine first = .start id ∧
    Marks endName last id ∧ Directive.ofLine last = .finish id ∧
    (∀ l ∈ ["  run();".toList], Directive.ends (String.ofList id) l = false) ∧
    (s.after 1 [first, "  run();".toList]).capture = some ("set-up", ["  run();".toList]) ∧
    (s.after 1 [first, "  run();".toList, last]).capture = none := by
  intro s first last id
  have ha : Marks startName first id := ⟨[' '], [' '], [], by decide +kernel⟩
  have hfirst : Directive.ofLine first = .start id := by decide +kernel
  have hb : Marks endName last id := ⟨[' '], [' '], [], by decide +kernel⟩
  have hlast : Directive.ofLine last = .finish id := by decide +kernel
  have hinner : ∀ l ∈ ["  run();".toList], Directive.ends (String.ofList id) l = false := by
    decide +kernel
  obtain ⟨hopen, hclosed, -⟩ := markers_pair_by_what_is_read_of_them s 1 3 ha hfirst hb hlast hinner
  exact ⟨ha, hfirst, hb, hlast, hinner, hopen.trans (by decide +kernel), hclosed.mpr rfl⟩

/-- Two identifiers that begin alike. -/
def likeText : List Char :=
  "/// @chapter: a \"A\"\n// @start: loadUser\nx\n// @end: loadConfig\ny\n".toList

/-- An end can close a snippet of another identifier, and the code bears neither of the two. -/
theorem an_end_can_close_a_snippet_of_another_identifier :
    let read := Desk.start.readText ⟨[]⟩ (.ofRoot ["p"]) ["p", "test", "a.ts"] likeText
    (∃ line ∈ (sourceLines likeText)[1]?, Marks startName line "loadUser".toList) ∧
    (∃ line ∈ (sourceLines likeText)[3]?, Marks endName line "loadConfig".toList) ∧
    read.2 = none ∧ read.1.book.notices = [] ∧
    read.1.book.chapters.map (·.sections) =
      [[⟨"Overview", [.code ⟨"load", "x", "typescript", "/p/test/a.ts", none⟩]⟩]] := by
  refine ⟨⟨"// @start: loadUser".toList, by decide +kernel, [' '], [' '], [], by decide +kernel⟩,
    ⟨"// @end: loadConfig".toList, by decide +kernel, [' '], [' '], [], by decide +kernel⟩, ?_⟩
  decide +kernel

end Sourcebook
