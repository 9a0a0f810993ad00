-- How the table of contents is spaced. Every line is made for a mention or is blank. A heading
-- stands between two blank lines, a blank line stands beside a heading, and no two blank lines
-- follow each other.
import Mathlib
import Sourcebook.Proofs.Contents.Mentions

namespace Sourcebook

/-- Folders and separators begin a part of the table of contents where the root lists them. -/
def Item.beginsPart : Item → Bool
  | .folder _ | .separator _ => true
  | _ => false

def OutlineEntry.text : OutlineEntry → String
  | .heading text | .line text => text

namespace Outline

variable {p : Places} {m : Mention} {blank : Bool}

/-! ## The line of a mention -/

theorem linkLine_has_star (depth : Nat) (label link : String) :
    ∃ text, linkLine depth label link = .line text ∧ '*' ∈ text.toList :=
  ⟨_, rfl, by simp⟩

namespace Mention

/-- A folder or a separator of the root is a heading. -/
def heads (m : Mention) : Bool := m.way.isEmpty && m.item.beginsPart

/-- Some mentions make no line, such as a separator without a title further down. -/
def isShown (p : Places) (m : Mention) : Bool := !(m.entries p).isEmpty

def line (p : Places) (m : Mention) : String := ((m.entries p).head?.map OutlineEntry.text).getD ""

theorem entries_of_heads (h : m.heads = true) :
    m.entries p = [.heading (m.line p)] ∧ m.line p ≠ "" := by
  obtain ⟨way, item, label⟩ := m
  obtain ⟨hway, hitem⟩ := Bool.and_eq_true_iff.mp h
  obtain rfl : way = [] := List.isEmpty_iff.mp hway
  cases item with
  | folder segment => simp [line, entries, OutlineEntry.text]
  | separator title =>
    simp only [line, entries, ofItem, List.length_nil, if_true, List.head?_cons, Option.map_some,
      Option.getD_some, OutlineEntry.text, true_and]
    split <;> simp
  | chapter | page => cases hitem

/-- Any other line has the star of a list. -/
theorem entries_of_line (hs : m.isShown p = true) (h : m.heads = false) :
    m.entries p = [.line (m.line p)] ∧ '*' ∈ (m.line p).toList := by
  suffices hone : ∃ text, m.entries p = [.line text] ∧ '*' ∈ text.toList by
    obtain ⟨text, he, hstar⟩ := hone
    simp [line, he, OutlineEntry.text, hstar]
  obtain ⟨way, item, label⟩ := m
  have hway : item.beginsPart = true → way.length ≠ 0 := fun hitem hlen => by
    simp [heads, List.eq_nil_of_length_eq_zero hlen, hitem] at h
  cases item with
  | folder segment =>
    obtain ⟨text, ht, hstar⟩ := linkLine_has_star way.length label (p.folderLink (way ++ [segment]))
    exact ⟨text, by simp [entries, hway rfl, ht], hstar⟩
  | separator title =>
    have hlen := hway rfl
    simp only [isShown, entries, ofItem, if_neg hlen] at hs ⊢
    split at hs
    · cases hs
    · next ht => exact ⟨_, by rw [if_neg ht], by simp⟩
  | chapter id =>
    simp only [isShown, entries, ofItem] at hs ⊢
    split at hs
    · cases hs
    · next c _ =>
      obtain ⟨text, ht, hstar⟩ := linkLine_has_star way.length c.title (p.chapterLink c)
      exact ⟨text, by simp [ht], hstar⟩
  | page page =>
    obtain ⟨text, ht, hstar⟩ := linkLine_has_star way.length page.title (p.pageLink page)
    exact ⟨text, by simp [entries, ofItem, ht], hstar⟩

theorem line_of_entries {e : OutlineEntry} (h : m.entries p = [e]) :
    m.isShown p = true ∧ m.line p = e.text := by
  simp [isShown, line, h]

theorem line_ne_empty (hs : m.isShown p = true) : m.line p ≠ "" := by
  cases h : m.heads with
  | true => exact (entries_of_heads h).2
  | false =>
    intro he
    have hstar := (entries_of_line hs h).2
    rw [he] at hstar
    simp at hstar

theorem heads_of_line_eq (hs : m.isShown p = true) (hl : m.line p = "---") : m.heads = true := by
  by_contra h
  have hstar := (entries_of_line hs (by simpa using h)).2
  rw [hl] at hstar
  simp at hstar

end Mention

/-! ## The rows -/

/-- A line with the mention that it is made for; a blank line is made for none. -/
abbrev Row := Option Mention

def rowText (p : Places) : Row → String
  | none => ""
  | some m => m.line p

/-- The rows of mentions that are shown. The flag says that the row above is blank. -/
def rows : Bool → List Mention → List Row
  | _, [] => []
  | blank, m :: rest =>
    if m.heads then (if blank then [] else [none]) ++ some m :: none :: rows true rest
    else some m :: rows false rest

/-- The lines of entries are those of the rows. -/
theorem layout_entries (p : Places) (blank : Bool) (ms : List Mention) :
    layout blank (ms.flatMap (Mention.entries p)) =
      (rows blank (ms.filter (Mention.isShown p))).map (rowText p) := by
  induction ms generalizing blank with
  | nil => rfl
  | cons m ms ih =>
    rw [List.flatMap_cons, List.filter_cons]
    cases hs : m.isShown p with
    | false =>
      have hnone : m.entries p = [] := by simpa [Mention.isShown] using hs
      rw [hnone, List.nil_append, ih]
      rfl
    | true =>
      rw [if_pos rfl, rows]
      cases h : m.heads with
      | true =>
        rw [(Mention.entries_of_heads h).1, List.singleton_append, layout, ih]
        cases blank <;> rfl
      | false =>
        rw [(Mention.entries_of_line hs h).1, List.singleton_append, layout, ih]
        rfl

/-- The lines of a table of contents are those of the rows of what the tree mentions. -/
theorem lines_eq_rows (s : Settings) (t : Tree) :
    lines s t = (rows false ((mentions [] t.root).filter (Mention.isShown (.of s t)))).map
      (rowText (.of s t)) :=
  (congrArg (layout false) (ofFolder_eq (.of s t) [] t.root)).trans
    (layout_entries (.of s t) false (mentions [] t.root))

/-- Every mention that is shown has its row, in order. -/
theorem reduceOption_rows (blank : Bool) (ms : List Mention) :
    (rows blank ms).reduceOption = ms := by
  induction ms generalizing blank with
  | nil => rfl
  | cons m ms ih =>
    rw [rows]
    split
    · cases blank <;> simp [List.reduceOption_cons_of_some, List.reduceOption_cons_of_none, ih]
    · rw [List.reduceOption_cons_of_some, ih]

/-- The rows made for a kind of mentions are as many as these, where each of them is shown. -/
theorem countP_rows {rs : List Row} {ms : List Mention} {q : Mention → Bool}
    (hrs : rs.reduceOption = ms.filter (Mention.isShown p))
    (hs : ∀ m ∈ ms, q m = true → m.isShown p = true) : rs.countP (·.any q) = ms.countP q := by
  have hrows : rs.reduceOption.countP q = rs.countP (·.any q) := by
    rw [List.reduceOption, List.countP_filterMap]
    exact List.countP_congr fun row _ => by cases row <;> rfl
  rw [← hrows, hrs, List.countP_filter]
  refine List.countP_congr fun m hm => ?_
  rw [Bool.and_eq_true]
  exact ⟨And.left, fun hq => ⟨hq, hs m hm hq⟩⟩

theorem text_of_row {rs : List Row} {i : Nat} {e : OutlineEntry} (h : rs[i]? = some (some m))
    (he : m.entries p = [e]) : (rs.map (rowText p))[i]? = some e.text := by
  rw [List.getElem?_map, h]
  exact congrArg some (Mention.line_of_entries he).2

theorem mem_of_row {ms : List Mention} {i : Nat} (h : (rows blank ms)[i]? = some (some m)) :
    m ∈ ms := by
  rw [← reduceOption_rows blank ms, List.reduceOption_mem_iff]
  exact List.mem_of_getElem? h

/-! ## The rows are spaced -/

def IsHeading (row : Option Row) : Prop := ∃ m, row = some (some m) ∧ m.heads = true

/-- What a row asks of the row above and the row below, where there are such. -/
def Fits (above : Option Row) (row : Row) (below : Option Row) : Prop :=
  match row with
  | none => below ≠ some none ∧ (IsHeading above ∨ IsHeading below)
  | some m => m.heads = true → above = some none ∧ below = some none

/-- Each row fits, the first one below a row that is given. -/
def Spaced (above : Option Row) : List Row → Prop
  | [] => True
  | row :: rest => Fits above row rest.head? ∧ Spaced (some row) rest

theorem head?_rows (ms : List Mention) : (rows true ms).head? ≠ some none := by
  cases ms with
  | nil => simp [rows]
  | cons m ms => by_cases h : m.heads <;> simp [rows, h]

/-- A heading brings the blank row below it along, so all that the rest has to know of the row above
is whether it is blank. -/
theorem spaced_rows {above : Option Row} (hb : blank = true ↔ above = some none)
    (ms : List Mention) : Spaced above (rows blank ms) := by
  induction ms generalizing above blank with
  | nil => exact trivial
  | cons m ms ih =>
    rw [rows]
    cases h : m.heads with
    | false => exact ⟨fun hm => absurd hm (by simp [h]), ih (by simp)⟩
    | true =>
      have hbelow : Spaced (some (some m)) (none :: rows true ms) :=
        ⟨⟨head?_rows ms, Or.inl ⟨m, rfl, h⟩⟩, ih (by simp)⟩
      cases blank with
      | true => exact ⟨fun _ => ⟨hb.mp rfl, rfl⟩, hbelow⟩
      | false => exact ⟨⟨by simp, Or.inr ⟨m, rfl, h⟩⟩, fun _ => ⟨rfl, rfl⟩, hbelow⟩

theorem Spaced.fits {above : Option Row} {rs : List Row} (h : Spaced above rs) {i : Nat} {row : Row}
    (hi : rs[i]? = some row) : Fits (if i = 0 then above else rs[i - 1]?) row rs[i + 1]? := by
  induction rs generalizing above i with
  | nil => cases hi
  | cons r rs ih =>
    cases i with
    | zero =>
      obtain rfl : r = row := by simpa using hi
      simpa [List.head?_eq_getElem?] using h.1
    | succ i =>
      have hfits := ih h.2 (by simpa using hi)
      cases i <;> simpa using hfits

/-- At the start no row is above. -/
theorem fits_rows {ms : List Mention} {i : Nat} {row : Row} (h : (rows false ms)[i]? = some row) :
    Fits (if i = 0 then none else (rows false ms)[i - 1]?) row (rows false ms)[i + 1]? :=
  (spaced_rows (by simp) ms).fits h

/-- A heading has a blank row above and one below. -/
theorem around_heading {ms : List Mention} {i : Nat} (h : (rows false ms)[i]? = some (some m))
    (hm : m.heads = true) :
    0 < i ∧ (rows false ms)[i - 1]? = some none ∧ (rows false ms)[i + 1]? = some none := by
  obtain ⟨habove, hbelow⟩ := fits_rows h hm
  split at habove
  · cases habove
  · next hi => exact ⟨Nat.pos_of_ne_zero hi, habove, hbelow⟩

/-- No blank row is below a blank row, and a heading is below or above it. -/
theorem beside_blank {ms : List Mention} {i : Nat} (h : (rows false ms)[i]? = some none) :
    (rows false ms)[i + 1]? ≠ some none ∧ ∃ m : Mention, m.heads = true ∧
      ((rows false ms)[i + 1]? = some (some m) ∨
        0 < i ∧ (rows false ms)[i - 1]? = some (some m)) := by
  obtain ⟨hsingle, ⟨m, habove, hm⟩ | ⟨m, hbelow, hm⟩⟩ := fits_rows h
  · split at habove
    · cases habove
    · next hi => exact ⟨hsingle, m, hm, Or.inr ⟨Nat.pos_of_ne_zero hi, habove⟩⟩
  · exact ⟨hsingle, m, hm, Or.inl hbelow⟩

/-- Only blank rows have no text. -/
theorem empty_iff_blank {ms : List Mention} (hs : ∀ m ∈ ms, m.isShown p = true) (i : Nat) :
    ((rows false ms).map (rowText p))[i]? = some "" ↔ (rows false ms)[i]? = some none := by
  rw [List.getElem?_map, Option.map_eq_some_iff]
  constructor
  · rintro ⟨row, hrow, htext⟩
    cases row with
    | none => exact hrow
    | some m => exact absurd htext (Mention.line_ne_empty (hs m (mem_of_row hrow)))
  · exact fun h => ⟨none, h, rfl⟩

/-- A row of dashes is a heading. -/
theorem heading_of_dashes {ms : List Mention} (hs : ∀ m ∈ ms, m.isShown p = true) {i : Nat}
    (h : ((rows false ms).map (rowText p))[i]? = some "---") :
    ∃ m, (rows false ms)[i]? = some (some m) ∧ m.heads = true := by
  rw [List.getElem?_map, Option.map_eq_some_iff] at h
  obtain ⟨row, hrow, htext⟩ := h
  cases row with
  | none => exact absurd htext (by simp [rowText])
  | some m => exact ⟨m, hrow, Mention.heads_of_line_eq (hs m (mem_of_row hrow)) htext⟩

/-! ## The headings -/

/-- The heading of an item that the root lists. An empty folder has none, and neither have chapters
and pages. -/
def heading? (root : Folder) : Item → Option String
  | .folder segment =>
    (root.child? segment).bind fun c => if c.isEmpty then none else some ("## " ++ c.info.label)
  | .separator title => some (if title.isEmpty then "---" else "## " ++ title)
  | _ => none

/-- A folder mentions what stands in it. -/
theorem way_of_mention {way : List String} {f : Folder} (h : m ∈ mentions way f) :
    way <+: m.way := by
  induction f generalizing way with
  | mk info children ih =>
    rw [mentions, mentionsOf_eq] at h
    obtain ⟨item, -, hm⟩ := List.mem_flatMap.mp h
    cases item with
    | folder segment =>
      simp only [lookup_segment] at hm
      cases hc : children.find? (·.segment == segment) with
      | none => simp [hc] at hm
      | some c =>
        rw [hc] at hm
        dsimp only at hm
        split at hm
        · cases hm
        · rcases List.mem_cons.mp hm with rfl | hin
          · exact List.prefix_rfl
          · exact (List.prefix_append way _).trans (ih c (List.mem_of_find?_eq_some hc) hin)
    | chapter | page | separator =>
      obtain rfl := List.mem_singleton.mp hm
      exact List.prefix_rfl

/-- Below the root nothing is a heading. -/
theorem no_heads_inside (segment : String) (f : Folder) :
    (mentions [segment] f).filter Mention.heads = [] := by
  refine List.filter_eq_nil_iff.mpr fun m hm h => ?_
  have hway : m.way = [] := List.isEmpty_iff.mp (Bool.and_eq_true_iff.mp h).1
  have habove := way_of_mention hm
  rw [hway] at habove
  cases List.prefix_nil.mp habove

/-- The headings are those of what the root lists, in its order. -/
theorem heads_of_root (p : Places) (root : Folder) :
    ((mentions [] root).filter Mention.heads).map (Mention.line p) =
      root.info.items.filterMap (heading? root) := by
  obtain ⟨info, children⟩ := root
  rw [mentions, mentionsOf_eq, List.filter_flatMap, List.map_flatMap,
    List.filterMap_eq_flatMap_toList]
  refine List.flatMap_congr fun item _ => ?_
  cases item with
  | folder segment =>
    simp only [lookup_segment, heading?, Folder.child?, Folder.children_mk]
    cases hc : children.find? (·.segment == segment) with
    | none => rfl
    | some c =>
      cases he : c.isEmpty with
      | true => simp [he]
      | false =>
        simp [he, no_heads_inside, Mention.heads, Item.beginsPart, Mention.line, Mention.entries,
          OutlineEntry.text]
  | chapter | page | separator => rfl

/-- The headings of the table of contents are set off, whatever the folders of the tree list. Each
line is made for one mention, in their order, or is blank. The mentions that are headings are those
of the separators and the full folders that the root lists. No two blank lines follow each other, a
heading has a blank line above and one below, and a blank line has a heading above or below. So a
rule of dashes never stands right below a line of a list. -/
theorem headings_stand_between_single_blank_lines (s : Settings) (t : Tree) :
    let p := Places.of s t
    let toc := mentions [] t.root
    let ls := lines s t
    ∃ rs : List Row,
      ls = rs.map (rowText p) ∧
      rs.reduceOption = toc.filter (Mention.isShown p) ∧
      (toc.filter Mention.heads).map (Mention.line p) =
        t.root.info.items.filterMap (heading? t.root) ∧
      (∀ i : Nat, ls[i]? = some "" ↔ rs[i]? = some none) ∧
      (∀ i : Nat, ls[i]? = some "" → ls[i + 1]? ≠ some "") ∧
      (∀ (i : Nat) m, rs[i]? = some (some m) → m.heads = true →
        0 < i ∧ ls[i - 1]? = some "" ∧ ls[i + 1]? = some "") ∧
      (∀ i : Nat, ls[i]? = some "" → ∃ m : Mention, m.heads = true ∧
        (rs[i + 1]? = some (some m) ∨ 0 < i ∧ rs[i - 1]? = some (some m))) ∧
      ∀ i : Nat, ls[i]? = some "---" → 0 < i ∧ ls[i - 1]? = some "" := by
  intro p toc ls
  have hs : ∀ m ∈ toc.filter (Mention.isShown p), m.isShown p = true := fun m hm =>
    (List.mem_filter.mp hm).2
  rw [show ls = (rows false (toc.filter (Mention.isShown p))).map (rowText p) from lines_eq_rows s t]
  have hblank := empty_iff_blank hs
  refine ⟨_, rfl, reduceOption_rows _ _, heads_of_root p t.root, hblank, ?_, ?_, ?_, ?_⟩
  · intro i hi
    rw [ne_eq, hblank]
    exact (beside_blank ((hblank i).mp hi)).1
  · intro i m hm hheads
    rw [hblank, hblank]
    exact around_heading hm hheads
  · exact fun i hi => (beside_blank ((hblank i).mp hi)).2
  · intro i hi
    obtain ⟨m, hm, hheads⟩ := heading_of_dashes hs hi
    obtain ⟨hpos, habove, -⟩ := around_heading hm hheads
    exact ⟨hpos, (hblank _).mpr habove⟩

/-- Two headings share the blank line between them. -/
example : layout false [.heading "---", .heading "## a", .line "* x", .heading "## b"] =
    ["", "---", "", "## a", "", "* x", "", "## b", ""] := rfl

end Outline

end Sourcebook
