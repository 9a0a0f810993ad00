-- The book that a list of events tells of, without going through them in turn: who was declared
-- first, which priority came last, which sections were named, and what each of them was given.
import Mathlib
import Sourcebook.Book.Basic
import Sourcebook.Proofs.Book.Edits
import Sourcebook.Proofs.Book.Lines
import Sourcebook.Proofs.Book.Runs

namespace Sourcebook

/-! ## The first of each kind -/

/-- The elements that bring a new key, in their order. -/
def firsts {α β : Type} [DecidableEq β] (key : α → β) : List α → List α
  | [] => []
  | a :: l => a :: (firsts key l).filter (fun b => key b ≠ key a)

section Firsts

variable {α β : Type} [DecidableEq β] {key : α → β} {l : List α}

theorem mem_map_firsts {k : β} : k ∈ (firsts key l).map key ↔ k ∈ l.map key := by
  induction l with
  | nil => simp [firsts]
  | cons a l ih =>
    simp only [firsts, List.map_cons, List.mem_cons]
    by_cases hk : k = key a
    · simp [hk]
    · simp only [hk, false_or]
      rw [← ih, List.mem_map, List.mem_map]
      constructor
      · rintro ⟨b, hb, rfl⟩
        exact ⟨b, List.mem_of_mem_filter hb, rfl⟩
      · rintro ⟨b, hb, rfl⟩
        exact ⟨b, List.mem_filter.mpr ⟨hb, by simpa using hk⟩, rfl⟩

theorem nodup_firsts : ((firsts key l).map key).Nodup := by
  induction l with
  | nil => simp [firsts]
  | cons a l ih =>
    rw [firsts, List.map_cons, List.nodup_cons]
    refine ⟨?_, ih.sublist (List.filter_sublist.map key)⟩
    intro hmem
    obtain ⟨b, hb, he⟩ := List.mem_map.mp hmem
    simpa [he] using (List.mem_filter.mp hb).2

/-- One more element counts when its key is new. -/
theorem firsts_snoc (a : α) :
    firsts key (l ++ [a]) = if key a ∈ l.map key then firsts key l else firsts key l ++ [a] := by
  induction l with
  | nil => simp [firsts]
  | cons b l ih =>
    rw [List.cons_append, firsts, ih, List.map_cons]
    by_cases hb : key a = key b
    · have hin : key a ∈ key b :: l.map key := by simp [hb]
      rw [if_pos hin]
      split
      · rw [firsts]
      · rw [List.filter_append, firsts]
        simp [hb]
    · by_cases hl : key a ∈ l.map key
      · rw [if_pos hl, if_pos (List.mem_cons_of_mem _ hl), firsts]
      · rw [if_neg hl, if_neg (by simp [hb, hl]), List.filter_append, firsts]
        simp [hb]

end Firsts

/-! ## What an event says -/

/-- A declaration of a chapter. -/
structure Declaration where
  id : String
  title : String
  source : Location
  deriving Repr, DecidableEq

namespace Event

def declaration? : Event → Option Declaration
  | .declare source _ id title => some ⟨id, title, source⟩
  | _ => none

/-- The chapter and the section that an event enters or adds to. -/
def spot? : Event → Option (String × String)
  | .enter chapter heading => some (chapter, heading)
  | .prose chapter heading _ => some (chapter, heading)
  | .code chapter heading _ _ => some (chapter, heading)
  | _ => none

def piece? : Event → Option Piece
  | .prose _ _ text => some (.prose text)
  | .code _ _ c group => some (.code c group)
  | _ => none

/-- The priority that an event sets for a chapter. -/
def rankOf? (id : String) : Event → Option Int
  | .rank chapter n => if chapter = id then some n else none
  | _ => none

/-- The heading that an event enters or adds to in a chapter. -/
def headingIn? (id : String) (e : Event) : Option String :=
  e.spot?.bind fun spot => if spot.1 = id then some spot.2 else none

end Event

/-! ## What the events say together -/

namespace Account

def declarations (es : List Event) : List Declaration := es.filterMap Event.declaration?

/-- The priority that was set last. -/
def priority (es : List Event) (id : String) : Int :=
  (es.filterMap (Event.rankOf? id)).getLast?.getD defaultPriority

/-- The sections of a chapter in the order in which they were first entered or added to. -/
def headings (es : List Event) (id : String) : List String :=
  firsts (fun heading => heading) (es.filterMap (Event.headingIn? id))

/-- What was added to a section. -/
def pieces (es : List Event) (id heading : String) : List Piece :=
  (es.filter fun e => e.spot? = some (id, heading)).filterMap Event.piece?

def sections (es : List Event) (id : String) : List Section :=
  (headings es id).map fun heading => ⟨heading, Block.ofPieces (pieces es id heading)⟩

/-- The chapter of a declaration. -/
def chapter (root : Location) (es : List Event) (d : Declaration) : Chapter where
  id := d.id
  title := d.title
  sourceFile := Location.text d.source
  sourceDir := Book.sourceDir root d.source
  priority := priority es d.id
  sections := sections es d.id
  folder := none

/-- The chapters of a list of events, in the order in which they were first declared. -/
def chapters (root : Location) (es : List Event) : List Chapter :=
  (firsts Declaration.id (declarations es)).map (chapter root es)

/-- The identifiers of the declared chapters. -/
def ids (es : List Event) : List String := (declarations es).map Declaration.id

/-- Every chapter that events speak of is declared among them. -/
def Grounded (es : List Event) : Prop := ∀ e ∈ es, ∀ c, e.about? = some c → c ∈ ids es

variable {root : Location} {es : List Event} {e : Event} {id heading : String}

/-! ## One more event -/

theorem priority_snoc :
    priority (es ++ [e]) id = (e.rankOf? id).getD (priority es id) := by
  unfold priority
  rw [List.filterMap_append]
  cases hr : e.rankOf? id with
  | none => simp [hr]
  | some n => simp [hr]

theorem pieces_snoc_other (h : e.spot? ≠ some (id, heading)) :
    pieces (es ++ [e]) id heading = pieces es id heading := by
  unfold pieces
  simp [List.filter_append, h]

theorem pieces_snoc (h : e.spot? = some (id, heading)) :
    pieces (es ++ [e]) id heading = pieces es id heading ++ e.piece?.toList := by
  unfold pieces
  rw [List.filter_append, List.filterMap_append]
  cases hp : e.piece? with
  | none => simp [h, hp]
  | some p => simp [h, hp]

theorem headings_snoc_other (h : e.headingIn? id = none) :
    headings (es ++ [e]) id = headings es id := by
  unfold headings
  simp [List.filterMap_append, h]

theorem mem_headings : heading ∈ headings es id ↔ ∃ e ∈ es, e.headingIn? id = some heading := by
  have hfirsts : ∀ hs : List String,
      heading ∈ (firsts (fun s : String => s) hs).map (fun s => s) ↔ heading ∈ hs.map fun s => s :=
    fun hs => mem_map_firsts
  unfold headings
  rw [← List.mem_filterMap]
  simpa using hfirsts (es.filterMap (Event.headingIn? id))

theorem nodup_headings (es : List Event) (id : String) : (headings es id).Nodup := by
  have hfirsts : ∀ hs : List String, ((firsts (fun s : String => s) hs).map fun s => s).Nodup :=
    fun hs => nodup_firsts
  simpa [headings] using hfirsts (es.filterMap (Event.headingIn? id))

theorem headings_snoc (h : e.headingIn? id = some heading) :
    headings (es ++ [e]) id =
      if heading ∈ headings es id then headings es id else headings es id ++ [heading] := by
  have hmem : heading ∈ headings es id ↔ heading ∈ es.filterMap (Event.headingIn? id) := by
    rw [mem_headings, List.mem_filterMap]
  simp only [hmem]
  unfold headings
  rw [List.filterMap_append, List.filterMap_cons_some h, List.filterMap_nil, firsts_snoc]
  simp

/-- What was never entered or added to has nothing. -/
theorem pieces_of_not_mem (h : heading ∉ headings es id) : pieces es id heading = [] := by
  unfold pieces
  rw [List.filterMap_eq_nil_iff]
  intro e he
  exfalso
  obtain ⟨hmem, hspot⟩ := List.mem_filter.mp he
  refine h (mem_headings.mpr ⟨e, hmem, ?_⟩)
  unfold Event.headingIn?
  rw [of_decide_eq_true hspot]
  simp

/-! ## One more event for a chapter -/

/-- What an event does to the blocks of its section. -/
def blocksAfter (e : Event) (blocks : List Block) : List Block :=
  (e.piece?.map (Block.addPiece blocks)).getD blocks

theorem ofPieces_after (ps : List Piece) (e : Event) :
    Block.ofPieces (ps ++ e.piece?.toList) = blocksAfter e (Block.ofPieces ps) := by
  unfold blocksAfter
  cases e.piece? with
  | none => simp
  | some p => simpa using Block.ofPieces_snoc ps p

/-- Changing one section of a list, by its heading. -/
theorem update_sections {hs : List String} (hn : hs.Nodup) (blocks : String → List Block)
    (f : List Block → List Block) :
    Section.update heading f (hs.map fun h => ⟨h, blocks h⟩) =
      if heading ∈ hs then hs.map fun h => ⟨h, if h = heading then f (blocks h) else blocks h⟩
      else hs.map (fun h => ⟨h, blocks h⟩) ++ [⟨heading, f []⟩] := by
  induction hs with
  | nil => rfl
  | cons h hs ih =>
    rw [List.nodup_cons] at hn
    rw [List.map_cons, Section.update]
    by_cases hh : h = heading
    · subst hh
      have hrest : hs.map (fun k => (⟨k, if k = h then f (blocks k) else blocks k⟩ : Section)) =
          hs.map fun k => ⟨k, blocks k⟩ := by
        refine List.map_congr_left fun k hk => ?_
        rw [if_neg]
        rintro rfl
        exact hn.1 hk
      rw [if_pos rfl, if_pos List.mem_cons_self, List.map_cons, hrest, if_pos rfl]
    · have hmem : heading ∈ h :: hs ↔ heading ∈ hs := by simp [Ne.symm hh]
      rw [if_neg hh, ih hn.2]
      simp only [hmem]
      split
      · rw [List.map_cons, if_neg hh]
      · rfl

theorem headingIn?_eq_some : e.headingIn? id = some heading ↔ e.spot? = some (id, heading) := by
  unfold Event.headingIn?
  cases e.spot? with
  | none => simp
  | some spot =>
    obtain ⟨chapter, h⟩ := spot
    simp only [Option.bind_some, Option.some.injEq, Prod.mk.injEq]
    split
    · next hc => simp [hc]
    · next hc => simp [hc]

theorem sections_snoc_other (h : ∀ heading, e.spot? ≠ some (id, heading)) :
    sections (es ++ [e]) id = sections es id := by
  have hnone : e.headingIn? id = none := by
    rw [Option.eq_none_iff_forall_ne_some]
    exact fun heading he => h heading (headingIn?_eq_some.mp he)
  unfold sections
  rw [headings_snoc_other hnone]
  refine List.map_congr_left fun heading _ => ?_
  rw [pieces_snoc_other (h heading)]

/-- An event that enters or adds to a section changes that section, or brings it. -/
theorem sections_snoc (h : e.spot? = some (id, heading)) :
    sections (es ++ [e]) id = Section.update heading (blocksAfter e) (sections es id) := by
  have hblocks : ∀ k, Block.ofPieces (pieces (es ++ [e]) id k) =
      if k = heading then blocksAfter e (Block.ofPieces (pieces es id k))
      else Block.ofPieces (pieces es id k) := by
    intro k
    by_cases hk : k = heading
    · subst hk
      rw [if_pos rfl, pieces_snoc h, ofPieces_after]
    · rw [if_neg hk, pieces_snoc_other]
      rw [h]
      simpa using Ne.symm hk
  unfold sections
  rw [update_sections (nodup_headings es id), headings_snoc (headingIn?_eq_some.mpr h)]
  simp only [hblocks]
  split
  · rfl
  · next hnew =>
    rw [List.map_append, List.map_singleton, if_pos rfl, pieces_of_not_mem hnew]
    congr 1
    refine List.map_congr_left fun k hk => ?_
    rw [if_neg]
    rintro rfl
    exact hnew hk

/-! ## One more event for a book -/

theorem declarations_snoc (e : Event) :
    declarations (es ++ [e]) = declarations es ++ e.declaration?.toList := by
  unfold declarations
  rw [List.filterMap_append]
  cases hd : e.declaration? with
  | none => simp [hd]
  | some d => simp [hd]

/-- A chapter of which no event speaks has no priority of its own and no sections. -/
theorem unspoken (hes : Grounded es) (hid : id ∉ ids es) :
    priority es id = defaultPriority ∧ sections es id = [] := by
  have hno : ∀ e ∈ es, e.about? ≠ some id := fun e he ha => hid (hes e he id ha)
  have hranks : es.filterMap (Event.rankOf? id) = [] := by
    rw [List.filterMap_eq_nil_iff]
    intro e he
    cases e with
    | rank c n =>
      have hne : c ≠ id := fun hc => hno _ he (congrArg some hc)
      simp [Event.rankOf?, hne]
    | _ => rfl
  have hheadings : headings es id = [] := by
    rw [List.eq_nil_iff_forall_not_mem]
    intro heading hmem
    obtain ⟨e, he, hin⟩ := mem_headings.mp hmem
    have hspot := headingIn?_eq_some.mp hin
    refine hno e he ?_
    cases e <;> simp_all [Event.spot?, Event.about?]
  constructor
  · unfold priority
    rw [hranks]
    rfl
  · unfold sections
    rw [hheadings]
    rfl

/-- An event that neither sets a priority of a chapter nor speaks of a section in it leaves the
chapter. -/
theorem chapter_snoc_other {d : Declaration} (hr : e.rankOf? d.id = none)
    (hs : ∀ heading, e.spot? ≠ some (d.id, heading)) :
    chapter root (es ++ [e]) d = chapter root es d := by
  unfold chapter
  rw [priority_snoc, hr, sections_snoc_other hs]
  rfl

theorem chapters_update (id : String) {f : Chapter → Chapter} (hd : e.declaration? = none)
    (hself : ∀ d : Declaration, d.id = id → chapter root (es ++ [e]) d = f (chapter root es d))
    (hother : ∀ d : Declaration, d.id ≠ id → chapter root (es ++ [e]) d = chapter root es d) :
    chapters root (es ++ [e]) =
      (chapters root es).map fun c => if c.id = id then f c else c := by
  unfold chapters
  rw [declarations_snoc, hd, Option.toList_none, List.append_nil, List.map_map]
  refine List.map_congr_left fun d _ => ?_
  rw [Function.comp_apply, show (chapter root es d).id = d.id from rfl]
  split
  · next h => exact hself d h
  · next h => exact hother d h

theorem find?_chapters {b : Book} (hb : b.chapters = chapters root es) :
    b.find? id = none ↔ id ∉ ids es := by
  unfold Book.find? ids
  rw [hb, List.find?_eq_none, ← mem_map_firsts]
  simp [chapters, chapter]

theorem declare_account {s : Settings} {b b' : Book} (hb : b.chapters = chapters s.root es)
    (hes : Grounded es) {source : Location} {n : Nat} {title : String}
    (h : b.declare s source n id title = .ok b') :
    b'.chapters = chapters s.root (es ++ [.declare source n id title]) := by
  have hchapters : chapters s.root (es ++ [.declare source n id title]) =
      (if id ∈ ids es then firsts Declaration.id (declarations es)
        else firsts Declaration.id (declarations es) ++ [⟨id, title, source⟩]).map
          (chapter s.root es) := by
    unfold chapters
    rw [declarations_snoc, show Event.declaration? (.declare source n id title) =
      some ⟨id, title, source⟩ from rfl, Option.toList_some, firsts_snoc]
    exact List.map_congr_left fun d _ => chapter_snoc_other rfl fun _ hs => nomatch hs
  rw [hchapters]
  rcases Book.declare_ok h with ⟨hnone, rfl⟩ | ⟨c, hfind, hb'⟩
  · have hnew : id ∉ ids es := (find?_chapters hb).mp hnone
    obtain ⟨hpriority, hsections⟩ := unspoken hes hnew
    rw [if_neg hnew, List.map_append, List.map_singleton]
    simp [chapter, hpriority, hsections, Book.newChapter, hb, chapters]
  · have hold : id ∈ ids es := by
      by_contra hnew
      rw [(find?_chapters hb).mpr hnew] at hfind
      cases hfind
    have hsame : b'.chapters = b.chapters := by
      rcases hb' with ⟨-, rfl⟩ | ⟨-, rfl⟩
      · rfl
      · rfl
    rw [if_pos hold, hsame, hb]
    rfl

theorem updateBlocks_account {s : Settings} {b : Book} (hb : b.chapters = chapters s.root es)
    (hd : e.declaration? = none) (hr : ∀ id, e.rankOf? id = none)
    (hspot : e.spot? = some (id, heading)) :
    (b.updateBlocks id heading (blocksAfter e)).chapters = chapters s.root (es ++ [e]) := by
  have hupdate : chapters s.root (es ++ [e]) = (chapters s.root es).map fun c =>
      if c.id = id then { c with sections := Section.update heading (blocksAfter e) c.sections }
      else c := by
    refine chapters_update id hd ?_ ?_
    · intro d hdid
      unfold chapter
      rw [priority_snoc, hr, sections_snoc (by rw [hdid]; exact hspot)]
      rfl
    · intro d hdid
      refine chapter_snoc_other (hr d.id) fun k hk => ?_
      rw [hspot] at hk
      exact hdid (congrArg Prod.fst (Option.some.inj hk)).symm
  rw [hupdate, ← hb]
  rfl

/-- One event changes the chapters of a book as it changes the account. -/
theorem apply_account {s : Settings} {b b' : Book} (hb : b.chapters = chapters s.root es)
    (hes : Grounded es) (he : e.isRemark = false) (h : b.apply s e = .ok b') :
    b'.chapters = chapters s.root (es ++ [e]) := by
  cases e with
  | declare source n id title => exact declare_account hb hes h
  | enter id heading =>
    cases h
    exact updateBlocks_account (e := .enter id heading) hb rfl (fun _ => rfl) rfl
  | rank id n =>
    cases h
    rw [chapters_update id (f := fun c => { c with priority := n }) rfl]
    · simp [Book.updateChapter, hb]
    · intro d hd
      unfold chapter
      rw [priority_snoc, sections_snoc_other (by simp [Event.spot?])]
      simp [Event.rankOf?, hd]
    · intro d hd
      refine chapter_snoc_other ?_ fun _ hs => nomatch hs
      simp [Event.rankOf?, Ne.symm hd]
  | prose id heading text =>
    cases h
    exact updateBlocks_account (e := .prose id heading text) hb rfl (fun _ => rfl) rfl
  | code id heading c group =>
    cases h
    exact updateBlocks_account (e := .code id heading c group) hb rfl (fun _ => rfl) rfl
  | notice n => cases he
  | listed files => cases he

/-- A remark changes no chapter. -/
theorem apply_remark {s : Settings} {b b' : Book} (he : e.isRemark = true)
    (h : b.apply s e = .ok b') : b'.chapters = b.chapters := by
  cases e with
  | notice n =>
    cases h
    rfl
  | listed files =>
    cases h
    rfl
  | _ => cases he

end Account

end Sourcebook
