-- Snippets of a text. A start opens one, the first line behind it that ends it closes it, and
-- what comes of it is told by the lines up to there.
import Mathlib
import Sourcebook.Proofs.Book.Lines

namespace Sourcebook

/-! ## What a line means to a snippet -/

namespace Directive

/-- The line has the form of a directive. -/
def hasForm (line : List Char) : Bool :=
  let s := Text.trim line
  (chapter? s).isSome || (section? s).isSome || (priority? s).isSome || (include? s).isSome
    || (start? s).isSome || (finish? s).isSome

/-- The line belongs to the code of an open snippet: it is no directive and no prose, and no mark
leaves it out. -/
def isCode (line : List Char) : Bool :=
  let s := Text.trim line
  !hasForm line && !("///".toList.isPrefixOf s) && !ignoreMark.isPrefixOf s
    && !ignoreMark.isSuffixOf s

/-- The line ends the snippet that is open under an identifier: it is its own end, another start,
or an include. -/
def ends (id : String) (line : List Char) : Bool :=
  match ofLine line with
  | .finish other => String.ofList other = id
  | .start _ => true
  | .embed _ _ => true
  | _ => false

def isStart (line : List Char) : Bool :=
  match ofLine line with
  | .start _ => true
  | _ => false

/-- The chapter that a line declares. -/
def declared? (line : List Char) : Option String :=
  match ofLine line with
  | .declare id _ => some (String.ofList id)
  | _ => none

/-- The section that a line enters. -/
def entered? (line : List Char) : Option String :=
  match ofLine line with
  | .enter title => some (String.ofList title)
  | _ => none

theorem ne_plain_of_form {s : List Char} {d : Directive}
    (h : (chapter? s).or ((section? s).or ((priority? s).or ((include? s).or
      ((start? s).or (finish? s))))) = some d) : d ≠ .plain := by
  rintro rfl
  simp only [Option.or_eq_some_iff] at h
  rcases h with h | ⟨-, h | ⟨-, h | ⟨-, h | ⟨-, h | ⟨-, h⟩⟩⟩⟩⟩
  · obtain ⟨id, title, hd, -⟩ := eq_declare_of_chapter? h
    cases hd
  · obtain ⟨title, hd⟩ := eq_enter_of_section? h
    cases hd
  · obtain ⟨raw, -, hd⟩ := Option.map_eq_some_iff.mp h
    cases hd
  · obtain ⟨target, options, hd⟩ := eq_embed_of_include? h
    cases hd
  · obtain ⟨id, -, hd⟩ := Option.map_eq_some_iff.mp h
    cases hd
  · obtain ⟨id, -, hd⟩ := Option.map_eq_some_iff.mp h
    cases hd

/-- Code is what is plain and not marked. -/
theorem isCode_eq (line : List Char) :
    isCode line = (decide (ofLine line = .plain) && !isMarked line) := by
  unfold isCode hasForm isMarked ofLine ofTrimmed
  generalize Text.trim line = s
  dsimp only
  rw [← Option.isSome_or, ← Option.isSome_or, ← Option.isSome_or, ← Option.isSome_or, ← Option.isSome_or]
  simp only [Option.or_assoc]
  cases hform : (chapter? s).or ((section? s).or ((priority? s).or ((include? s).or
      ((start? s).or (finish? s))))) with
  | some d =>
    simp [ne_plain_of_form hform]
  | none =>
    by_cases h1 : ignoreMark.isPrefixOf s = true
    · simp [h1]
    · by_cases h2 : ['/', '/', '/'].isPrefixOf s = true
      · simp [h1, h2]
      · simp [h1, h2]

end Directive

/-! ## What is known behind lines -/

/-- The chapter that was declared last in lines. -/
def chapterAt (lines : List (List Char)) : Option String :=
  (lines.filterMap Directive.declared?).getLast?

/-- The section that was entered last. Before the first chapter none can be entered. -/
def headingAt (lines : List (List Char)) : String :=
  ((lines.dropWhile fun l => (Directive.declared? l).isNone).filterMap
    Directive.entered?).getLastD firstSection

section

variable {lines : List (List Char)} {line : List Char}

theorem chapterAt_snoc_of_none (h : Directive.declared? line = none) :
    chapterAt (lines ++ [line]) = chapterAt lines := by
  simp [chapterAt, h]

theorem chapterAt_snoc_of_some {id : String} (h : Directive.declared? line = some id) :
    chapterAt (lines ++ [line]) = some id := by
  simp [chapterAt, h]

theorem chapterAt_eq_none : chapterAt lines = none ↔ ∀ l ∈ lines, Directive.declared? l = none := by
  simp [chapterAt]

theorem headingAt_of_no_chapter (h : chapterAt lines = none) : headingAt lines = firstSection := by
  have hall : lines.dropWhile (fun l => (Directive.declared? l).isNone) = [] := by
    rw [List.dropWhile_eq_nil_iff]
    intro l hl
    rw [chapterAt_eq_none.mp h l hl]
    rfl
  simp [headingAt, hall]

/-- Behind a chapter the section changes with the lines that enter one. -/
theorem headingAt_snoc {id : String} (h : chapterAt lines = some id) :
    headingAt (lines ++ [line]) = (Directive.entered? line).getD (headingAt lines) := by
  have hne : (lines.dropWhile fun l => (Directive.declared? l).isNone) ≠ [] := by
    rw [ne_eq, List.dropWhile_eq_nil_iff]
    intro hall
    rw [chapterAt_eq_none.mpr fun l hl => Option.isNone_iff_eq_none.mp (hall l hl)] at h
    cases h
  unfold headingAt
  rw [List.dropWhile_append, if_neg (by simpa using hne)]
  cases he : Directive.entered? line <;> simp [he]

theorem headingAt_snoc_of_no_chapter (h : chapterAt lines = none) :
    headingAt (lines ++ [line]) = headingAt lines := by
  rw [headingAt_of_no_chapter h]
  cases hd : Directive.declared? line with
  | none =>
    exact headingAt_of_no_chapter ((chapterAt_snoc_of_none hd).trans h)
  | some id =>
    have he : Directive.entered? line = none := by
      unfold Directive.declared? at hd
      unfold Directive.entered?
      split at hd
      · next hline => rw [hline]
      · cases hd
    have hall : lines.dropWhile (fun l => (Directive.declared? l).isNone) = [] := by
      rw [List.dropWhile_eq_nil_iff]
      intro l hl
      rw [chapterAt_eq_none.mp h l hl]
      rfl
    unfold headingAt
    rw [List.dropWhile_append, hall]
    simp [hd, he]

theorem headingAt_snoc_of_not_entered (h : Directive.entered? line = none) :
    headingAt (lines ++ [line]) = headingAt lines := by
  cases hc : chapterAt lines with
  | none => exact headingAt_snoc_of_no_chapter hc
  | some id => rw [headingAt_snoc hc, h, Option.getD_none]

end

/-! ## Captures -/

/-- A snippet of a text, by the lines. -/
structure Capture where
  id : String
  /-- The lines up to the start, and the start. -/
  before : List (List Char)
  /-- The lines behind it, up to the one that ends the snippet. -/
  body : List (List Char)

/-- The snippets of lines that come behind others: a start opens each of them. -/
def captures (before : List (List Char)) : List (List Char) → List Capture
  | [] => []
  | line :: rest =>
    match Directive.ofLine line with
    | .start id =>
      ⟨String.ofList id, before ++ [line], rest.takeWhile (!Directive.ends (String.ofList id) ·)⟩
        :: captures (before ++ [line]) rest
    | _ => captures (before ++ [line]) rest

namespace Capture

/-- The lines that are seen when the snippet is closed. -/
def seen (c : Capture) : List (List Char) := c.before ++ c.body

/-- The lines that are kept, as they stand. -/
def kept (c : Capture) : List (List Char) := c.body.filter Directive.isCode

end Capture

/-- The code that lines of a file make. -/
def snippetCode (source : Location) (id : String) (kept : List (List Char)) : Code :=
  ⟨id, String.ofList (Snippet.dedent kept), Language.ofName (Location.name source), Location.text source,
    none⟩

/-- What is said of a snippet that has no chapter, at a line. -/
def dropText (source : Location) (line : Nat) (id : String) : String :=
  Location.text source ++ ":" ++ toString line ++ ": "
    ++ ("snippet '" ++ id ++ "' outside a chapter dropped")

/-- What comes of a snippet that is closed behind lines, in a text of so many: code in the section
that is current there, or a warning where no chapter was declared till then. The warning is given
for the line that ends the snippet, or for the last one of the text. -/
def outcomeAt (source : Location) (total : Nat) (id : String) (seen kept : List (List Char)) : Event :=
  match chapterAt seen with
  | some chapter => .code chapter (headingAt seen) (snippetCode source id kept) none
  | none => .notice (.warning (dropText source (min (seen.length + 1) total) id))

def Capture.outcome (source : Location) (total : Nat) (c : Capture) : Event :=
  outcomeAt source total c.id c.seen c.kept

/-- Every start opens one snippet, and nothing else does. -/
theorem length_captures (before lines : List (List Char)) :
    (captures before lines).length = lines.countP Directive.isStart := by
  induction lines generalizing before with
  | nil => rfl
  | cons line rest ih =>
    unfold captures
    rw [List.countP_cons]
    cases h : Directive.ofLine line <;> simp [Directive.isStart, h, ih]

/-- A snippet reaches from its start to the first line behind it that ends it. -/
theorem mem_captures {before lines : List (List Char)} {c : Capture} :
    c ∈ captures before lines ↔ ∃ front line behind id, lines = front ++ line :: behind ∧
      Directive.ofLine line = .start id ∧ c.id = String.ofList id ∧
      c.before = before ++ front ++ [line] ∧
      c.body = behind.takeWhile (!Directive.ends c.id ·) := by
  induction lines generalizing before with
  | nil => simp [captures]
  | cons first rest ih =>
    have hinside : c ∈ captures (before ++ [first]) rest ↔ ∃ front line behind id,
        rest = front ++ line :: behind ∧ Directive.ofLine line = .start id ∧
        c.id = String.ofList id ∧ c.before = before ++ (first :: front) ++ [line] ∧
        c.body = behind.takeWhile (!Directive.ends c.id ·) := by
      rw [ih]
      simp only [List.append_assoc, List.nil_append, List.cons_append]
    have hsplit : c ∈ captures before (first :: rest) ↔
        (∃ id, Directive.ofLine first = .start id ∧ c.id = String.ofList id ∧
          c.before = before ++ [first] ∧ c.body = rest.takeWhile (!Directive.ends c.id ·)) ∨
        c ∈ captures (before ++ [first]) rest := by
      rw [captures]
      cases h : Directive.ofLine first with
      | start id =>
        rw [List.mem_cons]
        refine or_congr_left ⟨?_, ?_⟩
        · rintro rfl
          exact ⟨id, rfl, rfl, rfl, rfl⟩
        · rintro ⟨id', hid, hname, hbefore, hbody⟩
          cases hid
          obtain ⟨name, above, body⟩ := c
          dsimp only at hname hbefore hbody
          subst hname hbefore
          rw [hbody]
      | _ => simp
    rw [hsplit, hinside]
    constructor
    · rintro (⟨id, hstart, hname, hbefore, hbody⟩ | ⟨front, line, behind, id, rfl, h⟩)
      · exact ⟨[], first, rest, id, rfl, hstart, hname, by simpa using hbefore, hbody⟩
      · exact ⟨first :: front, line, behind, id, rfl, h⟩
    · rintro ⟨front, line, behind, id, hlines, hstart, hname, hbefore, hbody⟩
      cases front with
      | nil =>
        obtain ⟨rfl, rfl⟩ := List.cons_eq_cons.mp hlines
        exact Or.inl ⟨id, hstart, hname, by simpa using hbefore, hbody⟩
      | cons l front =>
        obtain ⟨rfl, rfl⟩ := List.cons_eq_cons.mp hlines
        exact Or.inr ⟨front, line, behind, id, rfl, hstart, hname, hbefore, hbody⟩

theorem ends_of_start {line id : List Char} (h : Directive.ofLine line = .start id) (name : String) :
    Directive.ends name line = true := by
  unfold Directive.ends
  rw [h]

/-- Lines that end no snippet are over before the next start. -/
theorem lt_of_mem_captures {before lines : List (List Char)} {c : Capture}
    (h : c ∈ captures before lines) (name : String) :
    before.length + (lines.takeWhile (!Directive.ends name ·)).length < c.before.length := by
  obtain ⟨front, line, behind, id, rfl, hstart, -, hbefore, -⟩ := mem_captures.mp h
  have htake : (front ++ line :: behind).takeWhile (!Directive.ends name ·) =
      front.takeWhile (!Directive.ends name ·) := by
    rw [List.takeWhile_append, List.takeWhile_cons_of_neg (by simp [ends_of_start hstart])]
    split
    · next hall => rw [List.append_nil, (List.takeWhile_prefix _).eq_of_length hall]
    · rfl
  have hle := (List.takeWhile_prefix (p := (!Directive.ends name ·)) (l := front)).length_le
  rw [htake, hbefore]
  simp only [List.length_append, List.length_singleton]
  omega

/-- The lines of a snippet are over before the next one starts. -/
theorem captures_apart (before lines : List (List Char)) :
    (captures before lines).Pairwise fun a b => a.seen.length < b.before.length := by
  induction lines generalizing before with
  | nil => exact List.Pairwise.nil
  | cons line rest ih =>
    unfold captures
    split
    · next id hstart =>
      refine List.pairwise_cons.mpr ⟨fun c hc => ?_, ih _⟩
      have hlt := lt_of_mem_captures hc (String.ofList id)
      rw [List.length_append] at hlt
      simpa only [Capture.seen, List.length_append] using hlt
    · exact ih _

end Sourcebook
