-- Which options an include takes. They have to be set off from the target by blanks, and reach from
-- a brace to the last brace that closes. What stands there counts as a whole, and is reported when it
-- cannot be read; anything else behind the target is passed over without a word.
import Mathlib
import Sourcebook.Book.Basic
import Sourcebook.Proofs.Book.Captures
import Sourcebook.Proofs.Json.Extent
import Sourcebook.Proofs.Text.Blanks

namespace Sourcebook

namespace Directive

/-! ## Taking a line apart -/

theorem expect_eq_some {w s r : List Char} : expect w s = some r ↔ s = w ++ r := by
  induction w generalizing s with
  | nil => simp [expect]
  | cons c w ih =>
    cases s with
    | nil => simp [expect]
    | cons d s =>
      simp only [expect, List.cons_append, List.cons.injEq, Option.ite_none_right_eq_some, ih]
      exact and_congr_left' eq_comm

theorem beforeLast_eq_some {c : Char} {s p : List Char} :
    beforeLast c s = some p ↔ ∃ rest, s = p ++ c :: rest ∧ c ∉ rest := by
  have hback : ∀ back, s.reverse.dropWhile (· != c) = back →
      ∃ rest, s = back.reverse ++ rest ∧ c ∉ rest := by
    rintro _ rfl
    refine ⟨(s.reverse.takeWhile (· != c)).reverse, ?_, fun hc => ?_⟩
    · rw [← List.reverse_append, List.takeWhile_append_dropWhile, List.reverse_reverse]
    · simpa using List.mem_takeWhile_imp (List.mem_reverse.mp hc)
  unfold beforeLast
  constructor
  · intro h
    split at h
    · next d before hdrop =>
      cases h
      obtain ⟨rest, hs, hrest⟩ := hback _ hdrop
      obtain rfl : d = c := by
        have hhead := List.head?_dropWhile_not (· != c) s.reverse
        rw [hdrop] at hhead
        simpa using hhead
      exact ⟨rest, by simpa using hs, hrest⟩
    · cases h
  · rintro ⟨rest, rfl, hrest⟩
    have hdrop : (p ++ c :: rest).reverse.dropWhile (· != c) = c :: p.reverse := by
      rw [List.reverse_append, List.reverse_cons, List.append_assoc, List.dropWhile_append_of_pos]
      · simp
      · intro d hd
        rw [bne_iff_ne]
        rintro rfl
        exact hrest (List.mem_reverse.mp hd)
    rw [hdrop]
    simp

/-! ## What stands behind a target -/

/-- A line is an include of a target, with what stands behind the quote that closes it. -/
def Includes (line target behind : List Char) : Prop :=
  ∃ gap more, Text.trim line = ['/', '/', '/'] ++
      (gap ++ ("@include:".toList ++ (more ++ '"' :: (target ++ '"' :: behind)))) ∧
    Text.allBlank gap = true ∧ Text.allBlank more = true ∧ target ≠ [] ∧ '"' ∉ target

/-- Only one text stands behind the target of an include. -/
theorem Includes.unique {line target behind other : List Char} (h : Includes line target behind)
    (k : Includes line target other) : other = behind := by
  have hat : ∀ r : List Char, Text.trimStart ("@include:".toList ++ r) = "@include:".toList ++ r :=
    fun r => Text.trimStart_of_solid fun c hc => by cases hc; rfl
  have hquote : ∀ r : List Char, Text.trimStart ('"' :: r) = '"' :: r :=
    fun r => Text.trimStart_of_solid fun c hc => by cases hc; rfl
  obtain ⟨gap, more, hline, hgap, hmore, -, -⟩ := h
  obtain ⟨gap', more', hline', hgap', hmore', -, -⟩ := k
  have hnames := congrArg Text.trimStart (List.append_cancel_left (hline'.symm.trans hline))
  rw [Text.trimStart_append hgap, Text.trimStart_append hgap', hat, hat] at hnames
  have hquotes := congrArg Text.trimStart (List.append_cancel_left hnames)
  rw [Text.trimStart_append hmore, Text.trimStart_append hmore', hquote, hquote] at hquotes
  simpa using hquotes

/-- The options that a text encloses: blanks set them off, and they reach from a brace to the last
brace that closes. -/
def Encloses (behind options : List Char) : Prop :=
  ∃ gap inner rest, behind = gap ++ '{' :: (inner ++ '}' :: rest) ∧ gap ≠ [] ∧
    Text.allBlank gap = true ∧ '}' ∉ rest ∧ options = '{' :: (inner ++ ['}'])

theorem options?_eq_some {behind o : List Char} : options? behind = some o ↔ Encloses behind o := by
  constructor
  · intro h
    unfold options? at h
    split at h
    · next b rest =>
      split at h
      · cases h
      · next hblank =>
        rw [Bool.not_eq_true', Bool.not_eq_false] at hblank
        split at h
        · next hopen =>
          obtain ⟨gap, hgap, hall⟩ := Text.exists_gap rest
          rw [hopen] at hgap
          obtain ⟨inner, hinner, rfl⟩ := Option.map_eq_some_iff.mp h
          obtain ⟨tail, rfl, htail⟩ := beforeLast_eq_some.mp hinner
          refine ⟨b :: gap, inner, tail, by rw [hgap]; rfl, List.cons_ne_nil _ _, ?_, htail, rfl⟩
          simpa [Text.allBlank, hblank] using hall
        · cases h
    · cases h
  · rintro ⟨gap, inner, rest, rfl, hne, hall, hrest, rfl⟩
    obtain ⟨b, gap, rfl⟩ := List.exists_cons_of_ne_nil hne
    have hblank : Text.isBlank b = true := List.all_eq_true.mp hall b List.mem_cons_self
    have hopen : Text.trimStart (gap ++ '{' :: (inner ++ '}' :: rest)) =
        '{' :: (inner ++ '}' :: rest) := by
      have hgap : Text.allBlank gap = true := by
        rw [Text.allBlank, List.all_cons, Bool.and_eq_true] at hall
        exact hall.2
      rw [Text.trimStart_append hgap]
      rfl
    have hlast : beforeLast '}' (inner ++ '}' :: rest) = some inner :=
      beforeLast_eq_some.mpr ⟨rest, rfl, hrest⟩
    unfold options?
    simp [hblank, hopen, hlast]

/-- An include can be taken apart, and its options are those that stand behind the target. -/
theorem includes_of_embed {line target : List Char} {raw : Option (List Char)}
    (h : ofLine line = .embed target raw) :
    ∃ behind, Includes line target behind ∧ raw = options? behind := by
  cases form_of_ofLine h with
  | embed hinclude =>
    unfold include? afterName at hinclude
    simp only [Option.bind_eq_bind, Option.bind_eq_some_iff, Option.pure_def, Option.some.injEq,
      expect_eq_some] at hinclude
    obtain ⟨_, ⟨front, hslashes, named, hnamed, rfl⟩, h⟩ := hinclude
    obtain ⟨gap, hfront, hgap⟩ := Text.exists_gap front
    obtain ⟨more, hmore, hblank⟩ := Text.exists_gap named
    split at h
    · next text hquote =>
      split at h
      · next q behind hdrop =>
        split at h
        · cases h
        · next hempty =>
          cases h
          obtain rfl : q = '"' := by
            have hhead := List.head?_dropWhile_not (· != '"') text
            rw [hdrop] at hhead
            simpa using hhead
          refine ⟨behind, ⟨gap, more, ?_, hgap, hblank, by simpa using hempty, fun hq => ?_⟩, rfl⟩
          · rw [← hdrop, List.takeWhile_append_dropWhile, ← hquote, ← hmore, ← hnamed, ← hfront]
            exact hslashes
          · simpa using List.mem_takeWhile_imp hq
      · cases h
    · cases h

/-- An object that blanks set off is enclosed as a whole. -/
theorem encloses_of_object {behind : List Char} {entries : List (Data.Value × Data.Value)}
    (hgap : behind.head?.any Text.isBlank = true)
    (h : Json.read (Text.trim behind) = .ok (.map entries)) : Encloses behind (Text.trim behind) := by
  obtain ⟨lead, trail, hbehind, hlead, htrail⟩ := Text.exists_trim behind
  obtain ⟨front, inner, tail, htrim, hfront, htail⟩ := Json.braces_of_read h
  have hall : behind = (lead ++ front) ++ '{' :: (inner ++ '}' :: (tail ++ trail)) := by
    rw [hbehind, htrim]
    simp
  have hgaps : Text.allBlank (lead ++ front) = true := by
    rw [Text.allBlank, List.all_append, Bool.and_eq_true]
    exact ⟨hlead, hfront⟩
  have hends : Text.allBlank (tail ++ trail) = true := by
    rw [Text.allBlank, List.all_append, Bool.and_eq_true]
    exact ⟨htail, htrail⟩
  refine ⟨lead ++ front, inner, tail ++ trail, hall, fun hnil => ?_, hgaps, fun hbrace => ?_, ?_⟩
  · rw [hall, hnil] at hgap
    cases hgap
  · cases List.all_eq_true.mp hends _ hbrace
  · rw [hall]
    exact Text.trim_of_solid inner hgaps rfl rfl hends

end Directive

/-! ## What an include does with its options -/

namespace IncludeOptions

variable {behind o : List Char}

theorem isEmpty_of_encloses (h : Directive.Encloses behind o) :
    (String.ofList o).isEmpty = false := by
  obtain ⟨gap, inner, rest, -, -, -, -, rfl⟩ := h
  rw [Bool.eq_false_iff, ne_eq, String.isEmpty_iff, ← String.toList_inj]
  simp

theorem read_of_object {entries : List (Data.Value × Data.Value)} (h : Directive.Encloses behind o)
    (hread : Json.read o = .ok (.map entries)) :
    read (some (String.ofList o)) = .ok (ofValue (.map entries)) := by
  simp [read, isEmpty_of_encloses h, hread]

theorem read_of_no_object (h : Directive.Encloses behind o)
    (hread : Json.isObject o = false) : ∃ e, read (some (String.ofList o)) = .error e := by
  simp only [read, isEmpty_of_encloses h, String.toList_ofList, Bool.false_eq_true, if_false]
  split
  · exact ⟨_, rfl⟩
  · next entries hmap =>
    rw [Json.isObject_iff.mpr ⟨entries, hmap⟩] at hread
    cases hread
  · exact ⟨_, rfl⟩

end IncludeOptions

namespace FileState

variable {s : FileState} {n : Nat} {line target : List Char} {raw : Option (List Char)}
  {chapter : String}

/-- The step of an include in a chapter, when its options and what is said of them are known. -/
def embedding (s : FileState) (n : Nat) (chapter target : String) (options : IncludeOptions)
    (complaints : List Event) : Step :=
  let before := s.closing n ++ complaints
  let s := s.closed
  match s.shelf.find target (Path.ofLocation s.source) with
  | .error e => ⟨before, s, some e⟩
  | .ok found =>
    let s := { s with shelf := found.shelf }
    let news := before ++ listing found.shelf
      ++ (found.warning.map (fun w => Event.notice (.warning w))).toList
    match found.path with
    | none => go s (news ++ [s.warn n ("missing include '" ++ target ++ "'")])
    | some path => go s (news ++ s.embedFound n chapter target path options)

/-- What is said of options that are not used. -/
def optionsText (options reason : String) : String :=
  "invalid include options " ++ Text.quotedText options ++ " (" ++ reason ++ "); using defaults"

theorem readLine_embed (hchapter : s.chapter = some chapter)
    (hline : Directive.ofLine line = .embed target raw) :
    s.readLine n line = s.embedding n chapter (String.ofList target)
      (s.optionsOf n (raw.map String.ofList)).1 (s.optionsOf n (raw.map String.ofList)).2 := by
  have hclosed : s.closed.chapter = some chapter := hchapter
  unfold readLine embed embedIn embedding
  rw [hline]
  simp only [hclosed]
  cases s.closed.shelf.find (String.ofList target) (Path.ofLocation s.closed.source) with
  | error e => rfl
  | ok found => cases hpath : found.path <;> simp [hpath, go, optionsOf, warn, place, closed]

/-- Options of an include count as a whole. What blanks set off from the target, from a brace to the
last brace that closes, is taken for options: an object gives its values, and anything else is
reported and replaced by the defaults. Where nothing is set off so, the defaults hold and nothing is
said, whatever stands there. An object that blanks set off, with nothing behind it, is what counts. -/
theorem options_count_as_a_whole (hchapter : s.chapter = some chapter)
    (hline : Directive.ofLine line = .embed target raw) :
    ∃ behind, (∀ other, Directive.Includes line target other ↔ other = behind) ∧
      (∀ o entries, Directive.Encloses behind o → Json.read o = .ok (.map entries) →
        s.readLine n line =
          s.embedding n chapter (String.ofList target) (.ofValue (.map entries)) []) ∧
      (∀ o, Directive.Encloses behind o → Json.isObject o = false →
        ∃ e, IncludeOptions.read (some (String.ofList o)) = .error e ∧
          s.readLine n line = s.embedding n chapter (String.ofList target) .default
            [s.warn n (optionsText (String.ofList o) e.message)]) ∧
      ((∀ o, ¬ Directive.Encloses behind o) →
        s.readLine n line = s.embedding n chapter (String.ofList target) .default []) ∧
      (∀ entries, behind.head?.any Text.isBlank = true →
        Json.read (Text.trim behind) = .ok (.map entries) →
        s.readLine n line =
          s.embedding n chapter (String.ofList target) (.ofValue (.map entries)) []) := by
  obtain ⟨behind, hincludes, rfl⟩ := Directive.includes_of_embed hline
  have hstep := readLine_embed (n := n) hchapter hline
  have hobject : ∀ o entries, Directive.Encloses behind o → Json.read o = .ok (.map entries) →
      s.readLine n line =
        s.embedding n chapter (String.ofList target) (.ofValue (.map entries)) [] := by
    intro o entries ho hread
    rw [hstep, Directive.options?_eq_some.mpr ho, Option.map_some, optionsOf,
      IncludeOptions.read_of_object ho hread]
  refine ⟨behind, fun other => ⟨hincludes.unique, fun h => h ▸ hincludes⟩, hobject,
    fun o ho hread => ?_, fun hnone => ?_, fun entries hgap hread =>
    hobject _ entries (Directive.encloses_of_object hgap hread) hread⟩
  · obtain ⟨e, he⟩ := IncludeOptions.read_of_no_object ho hread
    refine ⟨e, he, ?_⟩
    rw [hstep, Directive.options?_eq_some.mpr ho, Option.map_some, optionsOf, he]
    rfl
  · have hraw : Directive.options? behind = none :=
      Option.eq_none_iff_forall_ne_some.mpr fun o ho => hnone o (Directive.options?_eq_some.mp ho)
    rw [hstep, hraw]
    rfl

/-- A file next to the one that includes it. -/
def nearDisk : Disk :=
  ⟨[(["p"], .directory), (["p", "test"], .directory),
    (["p", "test", "X.sol"], .file (Text.encode "contract X"))]⟩

/-- An object behind the target gives the title of what is embedded. -/
theorem an_object_titles_what_is_embedded :
    let s := { ofFile ⟨nearDisk, .ofRoot ["p"], none⟩ ["p", "test", "a.ts"] with chapter := some "a" }
    let line := "/// @include: \"./X.sol\" \x7b\"tabTitle\": \"T\"\x7d".toList
    let object := "\x7b\"tabTitle\": \"T\"\x7d".toList
    s.chapter = some "a" ∧ Directive.ofLine line = .embed "./X.sol".toList (some object) ∧
    Directive.Includes line "./X.sol".toList (' ' :: object) ∧
    (∃ entries, Json.read object = .ok (.map entries) ∧
      s.readLine 1 line = s.embedding 1 "a" "./X.sol" (.ofValue (.map entries)) []) ∧
    (s.readLine 1 line).events = [.code "a" "Overview"
      ⟨"include-X.sol", "contract X", "solidity", "/p/test/X.sol", some "T"⟩ none] := by
  intro s line object
  have hchapter : s.chapter = some "a" := rfl
  have hline : Directive.ofLine line = .embed "./X.sol".toList (some object) := by decide +kernel
  have hincludes : Directive.Includes line "./X.sol".toList (' ' :: object) :=
    ⟨[' '], [' '], by decide +kernel⟩
  obtain ⟨behind, honly, -, -, -, hwhole⟩ := options_count_as_a_whole (n := 1) hchapter hline
  obtain rfl : ' ' :: object = behind := (honly _).mp hincludes
  have htrim : Text.trim (' ' :: object) = object := by decide +kernel
  rw [htrim] at hwhole
  obtain ⟨entries, hread⟩ := Json.isObject_iff.mp (show Json.isObject object = true by decide +kernel)
  have hstep := hwhole entries rfl hread
  rw [String.ofList_toList] at hstep
  exact ⟨hchapter, hline, hincludes, ⟨entries, hread, hstep⟩, by decide +kernel⟩

/-- Options that break off. -/
def brokenText : List Char :=
  "/// @chapter: a \"A\"\n/// @include: \"./X.sol\" \x7b\"strip\": true".toList

/-- Options that break off are passed over: nothing is said, and the file is embedded. -/
theorem broken_options_are_passed_over :
    let read := Desk.start.readText nearDisk (.ofRoot ["p"]) ["p", "test", "a.ts"] brokenText
    let behind := " \x7b\"strip\": true".toList
    (∃ line ∈ (sourceLines brokenText)[1]?, Directive.Includes line "./X.sol".toList behind) ∧
    Text.trim behind ≠ [] ∧ Json.isObject (Text.trim behind) = false ∧
    read.2 = none ∧ read.1.book.notices = [] ∧
    read.1.book.chapters.map (·.sections) = [[⟨"Overview", [.code ⟨"include-X.sol", "contract X",
      "solidity", "/p/test/X.sol", some "X.sol"⟩]⟩]] := by
  refine ⟨⟨"/// @include: \"./X.sol\" \x7b\"strip\": true".toList, by decide +kernel, [' '], [' '],
    by decide +kernel⟩, ?_⟩
  decide +kernel

end FileState

end Sourcebook
