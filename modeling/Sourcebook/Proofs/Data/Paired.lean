-- Lists whose items are related one by one.
import Mathlib

namespace Sourcebook

variable {α β : Type}

/-- What holds from list to list, item by item, holds over two steps. -/
theorem forall₂_trans {R : α → α → Prop} (hR : ∀ a b c, R a b → R b c → R a c)
    {as bs cs : List α} (h1 : List.Forall₂ R as bs) (h2 : List.Forall₂ R bs cs) :
    List.Forall₂ R as cs := by
  induction h1 generalizing cs with
  | nil => exact h2
  | cons h _ ih =>
    obtain _ | ⟨h', h2⟩ := h2
    exact .cons (hR _ _ _ h h') (ih h2)

/-- One item of a list becomes another one. -/
theorem forall₂_one {R : α → α → Prop} (hR : ∀ a, R a a) {a b : α} (h : R a b)
    (before after : List α) : List.Forall₂ R (before ++ a :: after) (before ++ b :: after) :=
  List.rel_append (List.forall₂_same.mpr fun c _ => hR c)
    (.cons h (List.forall₂_same.mpr fun c _ => hR c))

variable {R : α → β → Prop} {as : List α} {bs : List β} {b : β}

/-- Each item on the right comes from one on the left. -/
theorem exists_of_mem_right (h : List.Forall₂ R as bs) (hb : b ∈ bs) : ∃ a ∈ as, R a b := by
  induction h with
  | nil => cases hb
  | cons hab _ ih =>
    rcases List.mem_cons.mp hb with rfl | hb
    · exact ⟨_, List.mem_cons_self, hab⟩
    · obtain ⟨a, ha, hab⟩ := ih hb
      exact ⟨a, List.mem_cons_of_mem _ ha, hab⟩

theorem head_of_forall₂ (h : List.Forall₂ R as bs) (hb : b ∈ bs.head?) :
    ∃ a ∈ as.head?, R a b := by
  cases h with
  | nil => cases hb
  | cons hab _ =>
    cases hb
    exact ⟨_, rfl, hab⟩

end Sourcebook
