-- Captured code on its way into the book: each snippet of a text comes to stand once, at the end of
-- the section that is current when it is closed, or is reported as dropped.
import Mathlib
import Sourcebook.Proofs.Book.Closing
import Sourcebook.Proofs.Book.Order
import Sourcebook.Proofs.Book.Remarks

namespace Sourcebook

/-! ## Captured code in a book -/

/-- Code that was captured: it stands alone and has no label. -/
def Block.snippet? : Block → Option Code
  | .code c => if c.title.isNone then some c else none
  | _ => none

def Section.blocksIn (heading : String) (sections : List Section) : List Block :=
  ((sections.find? (·.title == heading)).map (·.blocks)).getD []

namespace Book

/-- The blocks of a section of a chapter. -/
def blocksIn (b : Book) (id heading : String) : List Block :=
  ((b.find? id).map fun c => Section.blocksIn heading c.sections).getD []

/-- The captured code in a section of a chapter. -/
def snippetsIn (b : Book) (id heading : String) : List Code :=
  (b.blocksIn id heading).filterMap Block.snippet?

end Book

def Chapter.snippetCount (c : Chapter) : Nat :=
  (c.sections.map fun x => (x.blocks.filterMap Block.snippet?).length).sum

/-- How much captured code a book holds. -/
def Book.snippetCount (b : Book) : Nat := (b.chapters.map Chapter.snippetCount).sum

/-- The captured code that an event adds to a section. -/
def Event.snippetsFor (id heading : String) : Event → List Code
  | .code chapter h c _ => if chapter = id ∧ h = heading ∧ c.title.isNone then [c] else []
  | _ => []

def Event.notice? : Event → Option Notice
  | .notice n => some n
  | _ => none

/-- The event brings captured code. -/
def Event.isCaptured : Event → Bool
  | .code _ _ c _ => c.title.isNone
  | _ => false

/-- Code of a group has a label. -/
def Event.GroupsLabelled (e : Event) : Prop :=
  ∀ id heading c g, e = .code id heading c (some g) → c.title ≠ none

theorem Event.GroupsLabelled.group {id heading : String} {c : Code} {group : Option String}
    (h : (Event.code id heading c group).GroupsLabelled) (hc : c.title = none) : group = none := by
  cases group with
  | none => rfl
  | some g => exact absurd hc (h id heading c g rfl)

/-! ## Blocks -/

namespace Block

theorem addProse_snippets (blocks : List Block) (text : String) :
    (addProse blocks text).filterMap snippet? = blocks.filterMap snippet? := by
  unfold addProse
  split
  · next content hlast =>
    have hblocks : blocks.dropLast ++ [.prose content] = blocks :=
      List.dropLast_append_getLast? _ hlast
    conv_rhs => rw [← hblocks]
    simp only [List.filterMap_append]
    rfl
  · simp [snippet?]

theorem addCode_snippets (blocks : List Block) (c : Code) :
    (addCode blocks c none).filterMap snippet? =
      blocks.filterMap snippet? ++ if c.title.isNone then [c] else [] := by
  unfold addCode
  cases h : c.title <;> simp [snippet?, h]

/-- Code with a label is no captured code, in whatever group. -/
theorem addCode_snippets_of_label (blocks : List Block) {c : Code} (h : c.title ≠ none)
    (group : Option String) :
    (addCode blocks c group).filterMap snippet? = blocks.filterMap snippet? := by
  have hone : (blocks ++ [Block.code c]).filterMap snippet? = blocks.filterMap snippet? := by
    simp [snippet?, h]
  unfold addCode
  cases group with
  | none => exact hone
  | some g =>
    dsimp only
    split
    · exact hone
    · split
      · next g' members hlast =>
        split
        · have hblocks : blocks.dropLast ++ [.tabs g' members] = blocks :=
            List.dropLast_append_getLast? _ hlast
          conv_rhs => rw [← hblocks]
          simp only [List.filterMap_append]
          rfl
        · simp [snippet?]
      · simp [snippet?]

end Block

/-! ## Sections and chapters -/

theorem Section.blocksIn_update (heading : String) (f : List Block → List Block)
    (sections : List Section) (h : String) :
    Section.blocksIn h (Section.update heading f sections) =
      if h = heading then f (Section.blocksIn h sections) else Section.blocksIn h sections := by
  induction sections with
  | nil =>
    by_cases hh : h = heading
    · simp [Section.update, Section.blocksIn, hh]
    · simp [Section.update, Section.blocksIn, hh, Ne.symm hh]
  | cons x rest ih =>
    unfold Section.update
    by_cases hx : x.title = heading
    · rw [if_pos hx]
      by_cases hh : h = heading
      · simp [Section.blocksIn, hx, hh]
      · have hxh : ¬ heading = h := Ne.symm hh
        simp [Section.blocksIn, hx, hh, hxh]
    · rw [if_neg hx]
      by_cases hxh : x.title = h
      · have hh : ¬ h = heading := fun e => hx (hxh.trans e)
        simp [Section.blocksIn, hxh, hh]
      · simpa [Section.blocksIn, List.find?_cons, hxh] using ih

namespace Book

variable {s : Settings} {b b' : Book} {e : Event}

theorem find?_updateChapter (b : Book) (id : String) {f : Chapter → Chapter}
    (hf : ∀ c, (f c).id = c.id) (other : String) :
    (b.updateChapter id f).find? other =
      (b.find? other).map fun c => if other = id then f c else c := by
  unfold Book.find? updateChapter
  dsimp only
  rw [List.find?_map]
  have hkept : ((fun c : Chapter => c.id == other) ∘ fun c => if c.id = id then f c else c) =
      fun c => c.id == other := by
    funext c
    simp only [Function.comp_apply]
    split
    · rw [hf]
    · rfl
  rw [hkept]
  cases hc : b.chapters.find? (·.id == other) with
  | none => rfl
  | some c =>
    have hid : c.id = other := by simpa using List.find?_some hc
    simp [hid]

theorem blocksIn_updateBlocks (b : Book) (id heading : String) (f : List Block → List Block)
    (hid : (b.find? id).isSome) (other h : String) :
    (b.updateBlocks id heading f).blocksIn other h =
      if other = id ∧ h = heading then f (b.blocksIn other h) else b.blocksIn other h := by
  unfold blocksIn updateBlocks
  rw [find?_updateChapter (f := fun c => { c with sections := Section.update heading f c.sections })
    b id fun _ => rfl]
  by_cases ho : other = id
  · subst ho
    obtain ⟨c, hc⟩ := Option.isSome_iff_exists.mp hid
    simp [hc, Section.blocksIn_update]
  · simp [ho]

/-! ## One event -/

/-- The chapter that an event speaks of is in the book. -/
def Holds (b : Book) (e : Event) : Prop := ∀ c, e.about? = some c → (b.find? c).isSome

theorem snippetsIn_updateBlocks {id heading : String} {f : List Block → List Block}
    (hid : (b.find? id).isSome) {added : List Code}
    (hf : ∀ blocks, (f blocks).filterMap Block.snippet? = blocks.filterMap Block.snippet? ++ added)
    (other h : String) :
    (b.updateBlocks id heading f).snippetsIn other h =
      b.snippetsIn other h ++ if other = id ∧ h = heading then added else [] := by
  unfold snippetsIn
  rw [blocksIn_updateBlocks b id heading f hid]
  split
  · exact hf _
  · exact (List.append_nil _).symm

theorem snippetsIn_of_sections (b : Book) (id : String) {f : Chapter → Chapter}
    (hid : ∀ c, (f c).id = c.id) (hf : ∀ c, (f c).sections = c.sections) (other heading : String) :
    (b.updateChapter id f).snippetsIn other heading = b.snippetsIn other heading := by
  unfold snippetsIn blocksIn
  rw [find?_updateChapter b id hid, Option.map_map]
  congr 3
  funext c
  simp only [Function.comp_apply]
  split
  · rw [hf]
  · rfl

theorem snippetsIn_append {c : Chapter} (hc : c.sections = []) (id heading : String) :
    snippetsIn { b with chapters := b.chapters ++ [c] } id heading = b.snippetsIn id heading := by
  unfold snippetsIn blocksIn Book.find? at *
  dsimp only
  rw [List.find?_append]
  cases hfind : b.chapters.find? (·.id == id) with
  | some found => rfl
  | none =>
    by_cases hid : c.id = id
    · simp [hid, hc, Section.blocksIn]
    · simp [hid]

/-- An event adds to each section the captured code that it brings for it. -/
theorem apply_snippets (hb : b.Holds e) (hgroup : e.GroupsLabelled) (h : b.apply s e = .ok b')
    (id heading : String) :
    b'.snippetsIn id heading = b.snippetsIn id heading ++ e.snippetsFor id heading := by
  cases e with
  | declare source n other title =>
    rw [show Event.snippetsFor id heading (.declare source n other title) = [] from rfl, List.append_nil]
    rcases declare_ok h with ⟨-, rfl⟩ | ⟨c, -, ⟨-, rfl⟩ | ⟨-, rfl⟩⟩
    · exact snippetsIn_append rfl id heading
    · rfl
    · rfl
  | enter other title =>
    cases h
    rw [snippetsIn_updateBlocks (hb other rfl) (fun blocks => (List.append_nil _).symm), ite_self]
    rfl
  | rank other n =>
    cases h
    exact (snippetsIn_of_sections (f := fun c => { c with priority := n }) b other (fun _ => rfl)
      (fun _ => rfl) id heading).trans (List.append_nil _).symm
  | prose other title text =>
    cases h
    rw [snippetsIn_updateBlocks (hb other rfl) (fun blocks =>
      (Block.addProse_snippets blocks text).trans (List.append_nil _).symm), ite_self]
    rfl
  | code other title c group =>
    cases h
    cases hlabel : c.title with
    | none =>
      obtain rfl := hgroup.group hlabel
      rw [snippetsIn_updateBlocks (hb other rfl) fun blocks => Block.addCode_snippets blocks c]
      simp only [Event.snippetsFor, hlabel, Option.isNone_none, if_true, and_true, eq_comm]
    | some label =>
      have hc : c.title ≠ none := by simp [hlabel]
      rw [snippetsIn_updateBlocks (hb other rfl) (fun blocks =>
        (Block.addCode_snippets_of_label blocks hc group).trans (List.append_nil _).symm), ite_self]
      simp [Event.snippetsFor, hlabel]
  | notice n =>
    cases h
    exact (List.append_nil _).symm
  | listed files =>
    cases h
    exact (List.append_nil _).symm

end Book

/-! ## The amount -/

theorem Section.count_update (heading : String) {f : List Block → List Block} {k : Nat}
    (hf : ∀ blocks, ((f blocks).filterMap Block.snippet?).length =
      (blocks.filterMap Block.snippet?).length + k) (sections : List Section) :
    ((Section.update heading f sections).map fun x => (x.blocks.filterMap Block.snippet?).length).sum =
      (sections.map fun x => (x.blocks.filterMap Block.snippet?).length).sum + k := by
  induction sections with
  | nil => simpa [Section.update] using hf []
  | cons x rest ih =>
    unfold Section.update
    split
    · simp only [List.map_cons, List.sum_cons, hf]
      omega
    · simp only [List.map_cons, List.sum_cons, ih]
      omega

/-- Of distinct chapters only one gets more. -/
theorem sum_update {cs : List Chapter} (hn : Distinct cs) {id : String} (hid : ∃ c ∈ cs, c.id = id)
    {f : Chapter → Chapter} {g : Chapter → Nat} {k : Nat} (hf : ∀ c, g (f c) = g c + k) :
    ((cs.map fun c => if c.id = id then f c else c).map g).sum = (cs.map g).sum + k := by
  induction cs with
  | nil => simp at hid
  | cons c rest ih =>
    obtain ⟨hnot, hrest⟩ := List.nodup_cons.mp (hn : ((c :: rest).map (·.id)).Nodup)
    by_cases hc : c.id = id
    · have hsame : rest.map (fun c => if c.id = id then f c else c) = rest := by
        refine (List.map_congr_left fun d hd => ?_).trans rest.map_id
        rw [if_neg]
        · rfl
        · intro hdid
          exact hnot (List.mem_map.mpr ⟨d, hd, hdid.trans hc.symm⟩)
      simp only [List.map_cons, if_pos hc, hsame, List.sum_cons, hf]
      omega
    · obtain ⟨d, hd, hdid⟩ := hid
      have hin : ∃ d ∈ rest, d.id = id := by
        rcases List.mem_cons.mp hd with rfl | hd
        · exact absurd hdid hc
        · exact ⟨d, hd, hdid⟩
      simp only [List.map_cons, if_neg hc, List.sum_cons, ih hrest hin]
      omega

namespace Book

variable {s : Settings} {b b' : Book} {e : Event}

theorem count_updateBlocks (hn : Distinct b.chapters) {id heading : String}
    {f : List Block → List Block} (hid : (b.find? id).isSome) {k : Nat}
    (hf : ∀ blocks, ((f blocks).filterMap Block.snippet?).length =
      (blocks.filterMap Block.snippet?).length + k) :
    (b.updateBlocks id heading f).snippetCount = b.snippetCount + k := by
  obtain ⟨c, hc⟩ := Option.isSome_iff_exists.mp hid
  have hin : ∃ c ∈ b.chapters, c.id = id :=
    ⟨c, List.mem_of_find?_eq_some hc, by simpa using List.find?_some hc⟩
  exact sum_update hn hin fun c => Section.count_update heading hf c.sections

/-- An event that brings captured code adds one piece, and every other event none. -/
theorem apply_count (hn : Distinct b.chapters) (hb : b.Holds e) (hgroup : e.GroupsLabelled)
    (h : b.apply s e = .ok b') : b'.snippetCount = b.snippetCount + if e.isCaptured then 1 else 0 := by
  cases e with
  | declare source n other title =>
    rcases declare_ok h with ⟨-, rfl⟩ | ⟨c, -, ⟨-, rfl⟩ | ⟨-, rfl⟩⟩
    · simp [snippetCount, newChapter, Chapter.snippetCount, Event.isCaptured]
    · rfl
    · rfl
  | enter other title =>
    cases h
    exact count_updateBlocks hn (hb other rfl) fun _ => rfl
  | rank other n =>
    cases h
    have hsame : ∀ c : Chapter, Chapter.snippetCount (if c.id = other then { c with priority := n } else c) =
        c.snippetCount := by
      intro c
      split <;> rfl
    simp [snippetCount, updateChapter, Function.comp_def, hsame, Event.isCaptured]
  | prose other title text =>
    cases h
    exact count_updateBlocks hn (hb other rfl) fun blocks => by rw [Block.addProse_snippets]; rfl
  | code other title c group =>
    cases h
    cases hlabel : c.title with
    | none =>
      obtain rfl := hgroup.group hlabel
      refine count_updateBlocks hn (hb other rfl) fun blocks => ?_
      rw [Block.addCode_snippets]
      simp [Event.isCaptured, hlabel]
    | some label =>
      have hc : c.title ≠ none := by simp [hlabel]
      refine count_updateBlocks hn (hb other rfl) fun blocks => ?_
      rw [Block.addCode_snippets_of_label blocks hc]
      simp [Event.isCaptured, hlabel]
  | notice n =>
    cases h
    rfl
  | listed files =>
    cases h
    rfl

/-- A chapter that is in the book stays there. -/
theorem isSome_find?_apply (h : b.apply s e = .ok b') {id : String} (hid : (b.find? id).isSome) :
    (b'.find? id).isSome := by
  have hedit := apply_edit h
  unfold Book.find? at hid ⊢
  generalize b'.chapters = cs at hedit
  cases hedit with
  | added _ _ => simp [List.find?_append, hid]
  | changed other hf =>
    have hfind := congrArg Option.isSome (find?_updateChapter b other hf.id id)
    rw [Option.isSome_map] at hfind
    exact hfind.trans hid
  | same => exact hid

/-- A chapter that is declared is in the book from then on. -/
theorem isSome_find?_declared (h : b.apply s e = .ok b') {declared : Declaration}
    (hd : e.declaration? = some declared) : (b'.find? declared.id).isSome := by
  cases e with
  | declare source n id title =>
    cases hd
    rcases declare_ok h with ⟨-, rfl⟩ | ⟨c, hc, ⟨-, rfl⟩ | ⟨-, rfl⟩⟩
    · simp [Book.find?, List.find?_append, newChapter]
    · exact Option.isSome_iff_exists.mpr ⟨c, hc⟩
    · exact Option.isSome_iff_exists.mpr ⟨c, hc⟩
  | _ => cases hd

end Book

namespace Desk

variable {s : Settings} {d d' : Desk} {source : Location}

/-- Events that speak of known chapters add all the captured code that they bring. -/
theorem applyAll_snippets {events : List Event} {known : List String}
    (hk : ∀ c ∈ known, (d.book.find? c).isSome) (hf : FileState.Follows known events)
    (hgroup : ∀ e ∈ events, e.GroupsLabelled) (h : d.applyAll s events = (d', none)) :
    (∀ id heading, d'.book.snippetsIn id heading =
      d.book.snippetsIn id heading ++ events.flatMap (Event.snippetsFor id heading)) ∧
    (Distinct d.book.chapters →
      d'.book.snippetCount = d.book.snippetCount + events.countP Event.isCaptured) := by
  induction events generalizing d known with
  | nil =>
    cases h
    simp
  | cons e rest ih =>
    obtain ⟨habout, hrest⟩ := hf
    simp only [applyAll] at h
    split at h
    · cases h
    · next d1 h1 =>
      have hbook := apply_book h1
      have hholds : d.book.Holds e := fun c hc => hk c (habout c hc)
      have hlabel := hgroup e List.mem_cons_self
      have hknown : ∀ c ∈ known ++ (e.declaration?.map Declaration.id).toList,
          (d1.book.find? c).isSome := by
        intro c hc
        rcases List.mem_append.mp hc with hc | hc
        · exact Book.isSome_find?_apply hbook (hk c hc)
        · obtain ⟨declared, hd, rfl⟩ := Option.map_eq_some_iff.mp (Option.mem_toList.mp hc)
          exact Book.isSome_find?_declared hbook hd
      obtain ⟨hin, hcount⟩ := ih hknown hrest (fun e' he' => hgroup e' (List.mem_cons_of_mem _ he')) h
      refine ⟨fun id heading => ?_, fun hn => ?_⟩
      · rw [hin, Book.apply_snippets hholds hlabel hbook, List.flatMap_cons, List.append_assoc]
      · rw [hcount (Book.apply_distinct hn hbook), Book.apply_count hn hholds hlabel hbook,
          List.countP_cons]
        omega

theorem isDrop_conflict (c : Chapter) (source : Location) (line : Nat) :
    (Notice.warning (Book.conflictText c source line)).isDrop source = false := by
  have htext : Book.conflictText c source line = Location.text source ++ ":" ++ toString line ++ ": "
      ++ ("chapter '" ++ c.id ++ "' already declared as '" ++ c.title ++ "' in " ++ c.sourceFile
        ++ "; keeping the first") := by
    unfold Book.conflictText
    rw [show ": chapter '" = ": " ++ "chapter '" from rfl]
    simp only [String.append_assoc]
  rw [htext, isDrop_at]
  simp only [String.toList_append]
  rfl

theorem remarksOn_drop (b : Book) {e : Event}
    (hsource : ∀ l n id title, e = .declare l n id title → l = source) :
    (b.remarksOn e).filter (Notice.isDrop source) =
      ([e].filter (Event.ofSnippet source)).filterMap Event.notice? := by
  cases e with
  | declare l n id title =>
    obtain rfl := hsource l n id title rfl
    simp only [Book.remarksOn, Book.conflict?]
    cases b.find? id with
    | none => rfl
    | some c =>
      by_cases hclash : Book.conflicts c l title = true
      · simp [hclash, isDrop_conflict, Event.ofSnippet]
      · simp [hclash, Event.ofSnippet]
  | notice n =>
    cases hn : n.isDrop source <;> simp [Book.remarksOn, Event.ofSnippet, Event.notice?, hn]
  | code id heading c group =>
    cases hc : c.title <;> simp [Book.remarksOn, Book.conflict?, Event.ofSnippet, Event.notice?, hc]
  | _ => rfl

/-- What is remarked on dropped snippets of a file is what its events say of them. -/
theorem remarksOn_drops {events : List Event}
    (hsource : ∀ l n id title, .declare l n id title ∈ events → l = source)
    (h : d.applyAll s events = (d', none)) :
    (d.remarksOn s events).filter (Notice.isDrop source) =
      (events.filter (Event.ofSnippet source)).filterMap Event.notice? := by
  induction events generalizing d with
  | nil => rfl
  | cons e rest ih =>
    have hrest := fun l n id title hm => hsource l n id title (List.mem_cons_of_mem e hm)
    have hone : (d.book.remarksOn e).filter (Notice.isDrop source) = _ :=
      remarksOn_drop d.book fun l n id title he => hsource l n id title (he ▸ List.mem_cons_self)
    cases h1 : d.apply s e with
    | error text => simp only [applyAll, h1, reduceCtorEq, Prod.mk.injEq, and_false] at h
    | ok d1 =>
      simp only [applyAll, h1] at h
      simp only [remarksOn, h1]
      rw [List.filter_append, ih hrest h, hone, ← List.filterMap_append, ← List.filter_append,
        List.singleton_append]

end Desk

/-! ## The whole text -/

/-- Declarations of a text stand at its place. -/
theorem FileState.readLines_source {s : FileState} {n : Nat} {lines : List (List Char)} {l : Location}
    {m : Nat} {id title : String} (h : .declare l m id title ∈ (s.readLines n lines).1) :
    l = s.source := by
  have hfits : ∀ {t : FileState}, ¬ Fits t (.declare l m id title) := by
    intro t ht
    cases ht with
    | about _ habout => cases habout
  have hline : ∀ {t : FileState} {k : Nat} {line : List Char},
      .declare l m id title ∈ (t.readLine k line).events → l = t.source := by
    intro t k line ht
    rcases readLine_fits ht with ⟨id', title', -, he⟩ | ht
    · cases he
      rfl
    · exact absurd ht hfits
  induction lines generalizing s n with
  | nil => exact absurd (closing_fits h) hfits
  | cons line rest ih =>
    simp only [readLines] at h
    split at h
    · exact hline h
    · rcases List.mem_append.mp h with h | h
      · exact hline h
      · exact (ih h).trans (s.readLine_state n line).1

theorem Desk.readText_ok {disk : Disk} {s : Settings} {d d' : Desk} {source : Location}
    {text : List Char} (h : d.readText disk s source text = (d', none)) :
    (Event.ofText ⟨disk, s, d.listed⟩ source text).2 = none ∧
      ∃ last, d.applyAll s (Event.ofText ⟨disk, s, d.listed⟩ source text).1 = (last, none) ∧
        d'.book.chapters = last.book.chapters ∧ d'.book.notices = last.book.notices := by
  rw [readText_eq] at h
  generalize Event.ofText ⟨disk, s, d.listed⟩ source text = told at h
  obtain ⟨events, stop⟩ := told
  dsimp only at h ⊢
  rcases happly : d.applyAll s events with ⟨last, _ | conflict⟩ <;> rw [happly] at h
  · cases stop with
    | none =>
      cases h
      exact ⟨rfl, last, rfl, rfl, rfl⟩
    | some e => cases h
  · cases h

theorem outcomeAt_cases (source : Location) (total : Nat) (id : String) (seen kept : List (List Char)) :
    (∃ chapter, outcomeAt source total id seen kept =
      .code chapter (headingAt seen) (snippetCode source id kept) none) ∨
    ∃ text, outcomeAt source total id seen kept = .notice (.warning text) := by
  unfold outcomeAt
  split
  · next chapter _ => exact Or.inl ⟨chapter, rfl⟩
  · exact Or.inr ⟨_, rfl⟩

/-- Snippets leave as much code and as many warnings as there are snippets. -/
theorem count_outcomes (source : Location) (total : Nat) (cs : List Capture) :
    (cs.map (Capture.outcome source total)).countP Event.isCaptured
        + ((cs.map (Capture.outcome source total)).filterMap Event.notice?).length = cs.length := by
  induction cs with
  | nil => rfl
  | cons c rest ih =>
    rw [List.map_cons, List.countP_cons, List.filterMap_cons, List.length_cons]
    rcases outcomeAt_cases source total c.id c.seen c.kept with ⟨chapter, hc⟩ | ⟨text, hc⟩
    · simp only [Capture.outcome, hc, Event.notice?, Event.isCaptured, snippetCode] at ih ⊢
      simp only [Option.isNone_none, if_true]
      omega
    · simp only [Capture.outcome, hc, Event.notice?, Event.isCaptured, List.length_cons] at ih ⊢
      simp only [Bool.false_eq_true, if_false]
      omega

/-- Only what comes of a snippet brings captured code. -/
theorem flatMap_snippetsFor (source : Location) (events : List Event) (id heading : String) :
    (events.filter (Event.ofSnippet source)).flatMap (Event.snippetsFor id heading) =
      events.flatMap (Event.snippetsFor id heading) := by
  induction events with
  | nil => rfl
  | cons e rest ih =>
    cases he : e.ofSnippet source with
    | true => simp [he, ih]
    | false =>
      have hnone : e.snippetsFor id heading = [] := by
        cases e with
        | code chapter h c group =>
          have hlabel : c.title.isNone = false := he
          simp [Event.snippetsFor, hlabel]
        | _ => rfl
      simp [he, ih, hnone]

theorem countP_isCaptured (source : Location) (events : List Event) :
    (events.filter (Event.ofSnippet source)).countP Event.isCaptured = events.countP Event.isCaptured := by
  rw [List.countP_filter]
  refine List.countP_congr fun e _ => ?_
  cases e <;> simp [Event.isCaptured, Event.ofSnippet]

theorem labelled_of_told {source : Location} {total : Nat} {cs : List Capture} {events : List Event}
    (h : events.filter (Event.ofSnippet source) = cs.map (Capture.outcome source total)) :
    ∀ e ∈ events, e.GroupsLabelled := by
  rintro e he id heading c g rfl hnone
  have hin : Event.code id heading c (some g) ∈ events.filter (Event.ofSnippet source) :=
    List.mem_filter.mpr ⟨he, by simp [Event.ofSnippet, hnone]⟩
  rw [h] at hin
  obtain ⟨capture, -, hcapture⟩ := List.mem_map.mp hin
  rcases outcomeAt_cases source total capture.id capture.seen capture.kept with ⟨chapter, hc⟩ | ⟨text, hc⟩
  · rw [Capture.outcome, hc] at hcapture
    cases hcapture
  · rw [Capture.outcome, hc] at hcapture
    cases hcapture

/-- Captured code is neither lost nor doubled. In a text that is read to its end every start opens
one snippet. It reaches to the first line behind that ends it, which is its own end, another start
or an include, or to the end of the text; so no line is in two snippets. Each snippet leaves one
thing: its lines of code, dedented, at the end of the section that is current where it is closed,
or a warning where no chapter was declared in the text till then. Nothing else adds captured code or
such a warning, so there are as many starts as pieces of code and warnings that came with the text. -/
theorem captured_code_is_neither_lost_nor_doubled {disk : Disk} {s : Settings} {d d' : Desk}
    {source : Location} {text : List Char} (h : d.readText disk s source text = (d', none)) :
    let lines := sourceLines text
    let outcomes := (captures [] lines).map (Capture.outcome source lines.length)
    (∀ c, c ∈ captures [] lines ↔ ∃ front line behind id, lines = front ++ line :: behind ∧
      Directive.ofLine line = .start id ∧ c.id = String.ofList id ∧ c.before = front ++ [line] ∧
      c.body = behind.takeWhile (!Directive.ends c.id ·)) ∧
    (captures [] lines).Pairwise (fun a b => a.seen.length < b.before.length) ∧
    (Event.ofText ⟨disk, s, d.listed⟩ source text).1.filter (Event.ofSnippet source) = outcomes ∧
    (∀ id heading, d'.book.snippetsIn id heading =
      d.book.snippetsIn id heading ++ outcomes.flatMap (Event.snippetsFor id heading)) ∧
    ∃ news, d'.book.notices = d.book.notices ++ news ∧
      news.filter (Notice.isDrop source) = outcomes.filterMap Event.notice? ∧
      (Distinct d.book.chapters → d'.book.snippetCount + news.countP (Notice.isDrop source) =
        d.book.snippetCount + lines.countP Directive.isStart) := by
  intro lines outcomes
  obtain ⟨hstop, last, happly, hchapters, hnotices⟩ := Desk.readText_ok h
  have htold : (Event.ofText ⟨disk, s, d.listed⟩ source text).1.filter (Event.ofSnippet source) =
      outcomes := Event.ofText_told hstop
  have hsource : ∀ l n id title,
      .declare l n id title ∈ (Event.ofText ⟨disk, s, d.listed⟩ source text).1 → l = source :=
    fun l n id title hm => FileState.readLines_source hm
  have hfollows : FileState.Follows [] (Event.ofText ⟨disk, s, d.listed⟩ source text).1 :=
    FileState.readLines_follows fun c hc => nomatch hc
  generalize (Event.ofText ⟨disk, s, d.listed⟩ source text).1 = events at *
  obtain ⟨hin, hcount⟩ := Desk.applyAll_snippets (by simp) hfollows (labelled_of_told htold) happly
  have hdrops := Desk.remarksOn_drops hsource happly
  refine ⟨fun c => ?_, captures_apart [] lines, htold, fun id heading => ?_, d.remarksOn s events, ?_, ?_, fun hn => ?_⟩
  · rw [mem_captures]
    simp only [List.nil_append]
  · have hsame : d'.book.snippetsIn id heading = last.book.snippetsIn id heading := by
      unfold Book.snippetsIn Book.blocksIn Book.find?
      rw [hchapters]
    rw [hsame, hin, ← flatMap_snippetsFor source, htold]
  · have hread := Desk.applyAll_notices s d events
    rw [happly] at hread
    rw [hnotices, hread]
  · rw [hdrops, htold]
  · have hsame : d'.book.snippetCount = last.book.snippetCount := by
      unfold Book.snippetCount
      rw [hchapters]
    have hall := count_outcomes source lines.length (captures [] lines)
    rw [length_captures] at hall
    have hnews : (d.remarksOn s events).countP (Notice.isDrop source) =
        (outcomes.filterMap Event.notice?).length := by
      rw [List.countP_eq_length_filter, hdrops, htold]
    rw [hsame, hcount hn, ← countP_isCaptured source, htold, hnews, ← hall, Nat.add_assoc]

/-- Three snippets: one before any chapter, one that the next one cuts off, and one that is open at
the end. -/
def snippetText : List Char :=
  ("// @start: x\nlost\n// @end: x\n/// @chapter: a \"A\"\n// @start: y\n  one\n/// prose\n"
    ++ "  two // @ignore\n// @start: z\n    three\n").toList

theorem three_snippets_are_kept_or_dropped :
    let s := Settings.ofRoot ["p"]
    let source : Location := ["p", "test", "a.ts"]
    let read := Desk.start.readText ⟨[]⟩ s source snippetText
    read.2 = none ∧ (sourceLines snippetText).countP Directive.isStart = 3 ∧
      read.1.book.snippetsIn "a" "Overview" =
        [⟨"y", "one", "typescript", "/p/test/a.ts", none⟩,
          ⟨"z", "three", "typescript", "/p/test/a.ts", none⟩] ∧
      read.1.book.snippetCount = 2 := by
  intro s source read
  have hread : read.2 = none := by decide +kernel
  have hpair : read = (read.1, none) := by rw [← hread]
  have hstarts : (sourceLines snippetText).countP Directive.isStart = 3 := by decide +kernel
  obtain ⟨-, -, -, hin, news, hnews, -, hcount⟩ := captured_code_is_neither_lost_nor_doubled hpair
  refine ⟨hread, hstarts, ?_, ?_⟩
  · rw [hin]
    decide +kernel
  · have hdrops : read.1.book.notices.countP (Notice.isDrop source) = 1 := by decide +kernel
    have hall := hcount List.nodup_nil
    rw [hnews, show Desk.start.book.notices = [] from rfl, List.nil_append] at hdrops
    rw [hdrops, hstarts] at hall
    exact Nat.succ.inj hall

end Sourcebook
