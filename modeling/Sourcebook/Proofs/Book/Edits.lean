-- What an event that is taken does to a book: it adds a chapter, or changes one in place, or leaves
-- all chapters as they are.
import Mathlib
import Sourcebook.Book.Basic

namespace Sourcebook

namespace Book

variable {s : Settings} {b b' : Book} {e : Event}

/-- The first declaration of a chapter adds it. A later one adds nothing, but for a warning where it
conflicts with the first. -/
theorem declare_ok {source : Location} {line : Nat} {id title : String}
    (h : b.declare s source line id title = .ok b') :
    (b.find? id = none ∧
      b' = { b with chapters := b.chapters ++ [newChapter s.root source id title] }) ∨
    ∃ c, b.find? id = some c ∧
      ((conflicts c source title = false ∧ b' = b) ∨
        (conflicts c source title = true ∧ b' = b.warn (conflictText c source line))) := by
  unfold declare at h
  cases hfind : b.find? id with
  | none =>
    rw [hfind] at h
    cases h
    exact Or.inl ⟨rfl, rfl⟩
  | some c =>
    rw [hfind] at h
    refine Or.inr ⟨c, rfl, ?_⟩
    cases hclash : conflicts c source title with
    | false =>
      simp only [hclash, Bool.not_false, if_true] at h
      cases h
      exact Or.inl ⟨rfl, rfl⟩
    | true =>
      simp only [hclash, Bool.not_true, Bool.false_eq_true, if_false] at h
      split at h
      · cases h
      · cases h
        exact Or.inr ⟨rfl, rfl⟩

/-- A change of a chapter that leaves alone what it was declared with, and the place of its page. -/
structure Keeps (f : Chapter → Chapter) : Prop where
  id : ∀ c, (f c).id = c.id
  dir : ∀ c, (f c).sourceDir = c.sourceDir
  folder : ∀ c, (f c).folder = c.folder

/-- What becomes of the chapters of a book by an event. -/
inductive Edit (s : Settings) (b : Book) (e : Event) : List Chapter → Prop
  | added {source : Location} {line : Nat} {id title : String} :
      e = .declare source line id title → b.find? id = none →
      Edit s b e (b.chapters ++ [newChapter s.root source id title])
  | changed (id : String) {f : Chapter → Chapter} :
      Keeps f → Edit s b e (b.updateChapter id f).chapters
  | same : Edit s b e b.chapters

theorem apply_edit (h : b.apply s e = .ok b') : Edit s b e b'.chapters := by
  cases e with
  | declare source line id title =>
    rcases declare_ok h with ⟨hnone, rfl⟩ | ⟨c, -, ⟨-, rfl⟩ | ⟨-, rfl⟩⟩
    · exact .added rfl hnone
    · exact .same
    · exact .same
  | enter id heading =>
    cases h
    exact .changed id ⟨fun _ => rfl, fun _ => rfl, fun _ => rfl⟩
  | rank id n =>
    cases h
    exact .changed id ⟨fun _ => rfl, fun _ => rfl, fun _ => rfl⟩
  | prose id heading text =>
    cases h
    exact .changed id ⟨fun _ => rfl, fun _ => rfl, fun _ => rfl⟩
  | code id heading code group =>
    cases h
    exact .changed id ⟨fun _ => rfl, fun _ => rfl, fun _ => rfl⟩
  | notice n =>
    cases h
    exact .same
  | listed files =>
    cases h
    exact .same

end Book

end Sourcebook
