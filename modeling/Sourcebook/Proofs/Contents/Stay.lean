-- Where a chapter comes to stand. It starts in the folder of its source, and every folder
-- above that has a key for it where it stands by then takes it up.
import Mathlib
import Sourcebook.Proofs.Contents.Overrides

namespace Sourcebook

/-- What the override files say, by the way to their folder. -/
abbrev Rules := List String → List (String × Override)

/-- The rules as a folder inside sees them. -/
def Rules.inside (rules : Rules) (segment : String) : Rules := fun way => rules (segment :: way)

/-- The rules as the folder at the end of a way sees them. -/
def Rules.below (rules : Rules) (v : List String) : Rules := fun way => rules (v ++ way)

/-- The folders above a folder, the nearest first. -/
def above : List String → List (List String)
  | [] => []
  | segment :: rest => (above rest).map (segment :: ·) ++ [[]]

/-- Where a chapter stands, the title that it has there, and whether it is hidden there. -/
structure Stay where
  way : List String
  title : String
  hidden : Bool
  deriving Repr, DecidableEq

namespace Stay

/-- A chapter in the folder of its source: the key that is its identifier counts. -/
def first (rules : Rules) (id : String) (way : List String) (title : String) : Stay :=
  match Override.about (rules way) id with
  | some o => ⟨way, o.retitle title, o.hidden⟩
  | none => ⟨way, title, false⟩

/-- A folder above takes the chapter when a key of it is the address of the chapter, as
seen from the folder. -/
def rise (rules : Rules) (id : String) (s : Stay) (folder : List String) : Stay :=
  match Override.about (rules folder) (Arrange.address (s.way.drop folder.length) id) with
  | some o => ⟨folder, o.retitle s.title, o.hidden⟩
  | none => s

/-- Where a chapter comes to stand after every folder above had its turn. -/
def last (rules : Rules) (id : String) (way : List String) (title : String) : Stay :=
  (above way).foldl (rise rules id) (first rules id way title)

/-- Where a chapter stands when a folder above it has its turn. -/
def before (rules : Rules) (id : String) (way : List String) (title : String)
    (folder : List String) : Stay :=
  ((above way).filter (folder.length < ·.length)).foldl (rise rules id) (first rules id way title)

/-- Where a chapter stands when a folder above it had its turn. -/
def after (rules : Rules) (id : String) (way : List String) (title : String)
    (folder : List String) : Stay :=
  ((above way).filter (folder.length ≤ ·.length)).foldl (rise rules id) (first rules id way title)

/-- A folder takes a chapter by a key: the chapter stands further down when the folder has its
turn, and the key is its address. -/
def takes (rules : Rules) (id : String) (way : List String) (title : String) (folder : List String)
    (key : String) : Prop :=
  folder ∈ above way ∧
    key = Arrange.address ((before rules id way title folder).way.drop folder.length) id

instance (rules : Rules) (id : String) (way : List String) (title : String) (folder : List String)
    (key : String) : Decidable (takes rules id way title folder key) :=
  inferInstanceAs (Decidable (_ ∧ _))

/-- The same stay, seen from the folder around. -/
def within (segment : String) (s : Stay) : Stay := { s with way := segment :: s.way }

/-- The same stay, seen from a folder further up. -/
def under (v : List String) (s : Stay) : Stay := { s with way := v ++ s.way }

/-! ## Laws -/

@[simp] theorem within_way (segment : String) (s : Stay) :
    (s.within segment).way = segment :: s.way := rfl

@[simp] theorem within_title (segment : String) (s : Stay) :
    (s.within segment).title = s.title := rfl

@[simp] theorem within_hidden (segment : String) (s : Stay) :
    (s.within segment).hidden = s.hidden := rfl

theorem last_nil (rules : Rules) (id title : String) :
    last rules id [] title = first rules id [] title := rfl

theorem first_within (rules : Rules) (id segment : String) (way : List String) (title : String) :
    first rules id (segment :: way) title =
      (first (rules.inside segment) id way title).within segment := by
  unfold first Rules.inside
  split <;> rfl

theorem rise_within (rules : Rules) (id segment : String) (s : Stay) (folder : List String) :
    rise rules id (s.within segment) (segment :: folder) =
      (rise (rules.inside segment) id s folder).within segment := by
  unfold rise Rules.inside
  simp only [within_way, List.length_cons, List.drop_succ_cons]
  split <;> rfl

theorem rises_within (rules : Rules) (id segment : String) (folders : List (List String)) (s : Stay) :
    (folders.map (segment :: ·)).foldl (rise rules id) (s.within segment) =
      (folders.foldl (rise (rules.inside segment) id) s).within segment := by
  induction folders generalizing s with
  | nil => rfl
  | cons folder folders ih =>
    simp only [List.map_cons, List.foldl_cons, rise_within]
    exact ih _

/-- The folder at the top has its turn when all folders below it had theirs. -/
theorem last_cons (rules : Rules) (id segment : String) (way : List String) (title : String) :
    last rules id (segment :: way) title =
      rise rules id ((last (rules.inside segment) id way title).within segment) [] := by
  unfold last
  rw [above, List.foldl_append, first_within, rises_within]
  rfl

/-- Before the folder at the top has its turn, all folders below it had theirs. -/
theorem before_top (rules : Rules) (id segment : String) (way : List String) (title : String) :
    before rules id (segment :: way) title [] =
      (last (rules.inside segment) id way title).within segment := by
  have hall : (above (segment :: way)).filter (([] : List String).length < ·.length) =
      (above way).map (segment :: ·) := by
    simp [above]
  unfold before last
  rw [hall, first_within, rises_within]

theorem before_inside (rules : Rules) (id segment : String) (way : List String) (title : String)
    (folder : List String) :
    before rules id (segment :: way) title (segment :: folder) =
      (before (rules.inside segment) id way title folder).within segment := by
  have hall : (above (segment :: way)).filter ((segment :: folder).length < ·.length) =
      ((above way).filter (folder.length < ·.length)).map (segment :: ·) := by
    simp [above, List.filter_map, Function.comp_def]
  unfold before
  rw [hall, first_within, rises_within]

theorem takes_top (rules : Rules) (id segment : String) (way : List String) (title key : String) :
    takes rules id (segment :: way) title [] key ↔
      key = Arrange.address (segment :: (last (rules.inside segment) id way title).way) id := by
  simp [takes, above, before_top]

theorem takes_inside (rules : Rules) (id segment : String) (way : List String) (title : String)
    (folder : List String) (key : String) :
    takes rules id (segment :: way) title (segment :: folder) key ↔
      takes (rules.inside segment) id way title folder key := by
  simp [takes, above, before_inside]

/-! ## Seen from a folder on the way -/

theorem after_top (rules : Rules) (id : String) (way : List String) (title : String) :
    after rules id way title [] = last rules id way title := by
  unfold after last
  rw [List.filter_eq_self.mpr (by simp)]

theorem after_inside (rules : Rules) (id segment : String) (way : List String) (title : String)
    (folder : List String) :
    after rules id (segment :: way) title (segment :: folder) =
      (after (rules.inside segment) id way title folder).within segment := by
  have hall : (above (segment :: way)).filter ((segment :: folder).length ≤ ·.length) =
      ((above way).filter (folder.length ≤ ·.length)).map (segment :: ·) := by
    simp [above, List.filter_map, Function.comp_def]
  unfold after
  rw [hall, first_within, rises_within]

/-- Before a folder has its turn, what counts are the rules below it. -/
theorem before_below (rules : Rules) (id : String) (v way : List String) (title : String) :
    before rules id (v ++ way) title v = (before (rules.below v) id way title []).under v := by
  induction v generalizing rules with
  | nil => rfl
  | cons segment v ih =>
    rw [List.cons_append, before_inside, ih]
    rfl

theorem after_below (rules : Rules) (id : String) (v way : List String) (title : String) :
    after rules id (v ++ way) title v = (last (rules.below v) id way title).under v := by
  induction v generalizing rules with
  | nil => exact after_top rules id way title
  | cons segment v ih =>
    rw [List.cons_append, after_inside, ih]
    rfl

/-- A chapter that is still in a folder in the end was not taken by a folder above. -/
theorem last_below {rules : Rules} {id : String} {v way rest : List String} {title : String}
    (h : (last rules id (v ++ way) title).way = v ++ rest) :
    last rules id (v ++ way) title = (last (rules.below v) id way title).under v := by
  induction v generalizing rules with
  | nil => rfl
  | cons segment v ih =>
    rw [List.cons_append, last_cons] at h ⊢
    unfold rise at h ⊢
    cases ho : Override.about (rules []) (Arrange.address (((last (rules.inside segment) id
        (v ++ way) title).within segment).way.drop ([] : List String).length) id) with
    | some o =>
      rw [ho] at h
      cases h
    | none =>
      rw [ho] at h
      exact congrArg (within segment) (ih (List.cons.inj h).2)

theorem mem_above {v way : List String} : v ∈ above way ↔ ∃ s r, way = v ++ s :: r := by
  induction way generalizing v with
  | nil => simp [above]
  | cons segment way ih =>
    rw [above, List.mem_append, List.mem_map, List.mem_singleton]
    constructor
    · rintro (⟨u, hu, rfl⟩ | rfl)
      · obtain ⟨s, r, rfl⟩ := ih.mp hu
        exact ⟨s, r, rfl⟩
      · exact ⟨segment, way, rfl⟩
    · rintro ⟨s, r, he⟩
      cases v with
      | nil => exact Or.inr rfl
      | cons t v =>
        obtain ⟨rfl, hway⟩ := List.cons.inj he
        exact Or.inl ⟨v, ih.mpr ⟨s, r, hway⟩, rfl⟩

/-- A folder above that takes a chapter takes it up on its way. -/
theorem rises_prefix (rules : Rules) (id : String) {way : List String} {folders : List (List String)}
    (h : ∀ v ∈ folders, v <+: way) {s : Stay} (hs : s.way <+: way) :
    (folders.foldl (rise rules id) s).way <+: way := by
  induction folders generalizing s with
  | nil => exact hs
  | cons folder folders ih =>
    refine ih (fun v hv => h v (List.mem_cons_of_mem _ hv)) ?_
    unfold rise
    split
    · exact h folder List.mem_cons_self
    · exact hs

theorem first_way (rules : Rules) (id : String) (way : List String) (title : String) :
    (first rules id way title).way = way := by
  unfold first
  split <;> rfl

theorem above_prefix {v way : List String} (h : v ∈ above way) : v <+: way := by
  obtain ⟨s, r, rfl⟩ := mem_above.mp h
  exact List.prefix_append v _

/-- A chapter only moves up: it comes to stand in its folder or in one above. -/
theorem last_prefix (rules : Rules) (id : String) (way : List String) (title : String) :
    (last rules id way title).way <+: way :=
  rises_prefix rules id (fun _ hv => above_prefix hv) (by rw [first_way])

/-- A chapter that comes to stand in a folder was put there or further down, and it was the folder
itself that placed it there, or one below. -/
theorem exists_of_last {rules : Rules} {id : String} {v way : List String} {title : String}
    (h : (last rules id way title).way = v) :
    ∃ inside, way = v ++ inside ∧ (last (rules.below v) id inside title).way = [] ∧
      last rules id way title = (last (rules.below v) id inside title).under v := by
  obtain ⟨inside, rfl⟩ := h ▸ last_prefix rules id way title
  have hsame := last_below (h.trans (List.append_nil v).symm)
  refine ⟨inside, rfl, ?_, hsame⟩
  rw [hsame] at h
  exact List.append_right_eq_self.mp h

theorem before_prefix (rules : Rules) (id : String) (way : List String) (title : String)
    (folder : List String) : (before rules id way title folder).way <+: way :=
  rises_prefix rules id (fun _ hv => above_prefix (List.mem_filter.mp hv).1) (by rw [first_way])

theorem after_prefix (rules : Rules) (id : String) (way : List String) (title : String)
    (folder : List String) : (after rules id way title folder).way <+: way :=
  rises_prefix rules id (fun _ hv => above_prefix (List.mem_filter.mp hv).1) (by rw [first_way])

/-- A folder takes a chapter that stands further down by its address, as seen from the folder. -/
theorem takes_iff {rules : Rules} {id : String} {way : List String} {title : String}
    {v : List String} {key : String} : takes rules id way title v key ↔
      ∃ u, u ≠ [] ∧ (before rules id way title v).way = v ++ u ∧ key = Arrange.address u id := by
  unfold takes
  rw [mem_above]
  constructor
  · rintro ⟨⟨s, r, rfl⟩, hkey⟩
    rw [before_below, before_top] at hkey ⊢
    rw [under, List.drop_left] at hkey
    exact ⟨_, List.cons_ne_nil _ _, rfl, hkey⟩
  · rintro ⟨u, hu, hway, rfl⟩
    obtain ⟨s, r, rfl⟩ := List.exists_cons_of_ne_nil hu
    obtain ⟨t, ht⟩ := hway ▸ before_prefix rules id way title v
    refine ⟨⟨s, r ++ t, ?_⟩, by rw [hway, List.drop_left]⟩
    rw [← ht, List.append_assoc, List.cons_append]

end Stay

end Sourcebook
