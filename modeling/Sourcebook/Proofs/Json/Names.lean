-- An object that was read has each of its names once.
import Mathlib
import Sourcebook.Json.Reader

namespace Sourcebook

namespace Data

/-- Texts alone are keys, and each is there once. -/
structure Named (entries : List (Value × Value)) : Prop where
  texts : ∀ e ∈ entries, ∃ s, e.1 = .text s
  nodup : (entries.map (·.1)).Nodup

theorem named_nil : Named [] := ⟨by simp, by simp⟩

theorem sameKey_text {v : Value} {s : String} (hv : ∃ t, v = .text t) :
    v.sameKey (.text s) = true ↔ v = .text s := by
  obtain ⟨t, rfl⟩ := hv
  simp [Value.sameKey]

/-- Setting a text key keeps the names of a map apart. -/
theorem named_insertEntry {entries : List (Value × Value)} (h : Named entries) (s : String)
    (v : Value) : Named (insertEntry entries (.text s) v) := by
  have hsame : ∀ e ∈ entries, (e.1.sameKey (.text s) = true ↔ e.1 = .text s) :=
    fun e he => sameKey_text (h.texts e he)
  unfold insertEntry
  split
  · have hkeys : (entries.map fun e => if e.1.sameKey (.text s) then (e.1, v) else e).map (·.1) =
        entries.map (·.1) := by
      rw [List.map_map]
      apply List.map_congr_left
      intro e _
      simp only [Function.comp]
      split <;> rfl
    refine ⟨?_, hkeys ▸ h.nodup⟩
    intro e he
    obtain ⟨e', he', rfl⟩ := List.mem_map.mp he
    obtain ⟨t, ht⟩ := h.texts e' he'
    refine ⟨t, ?_⟩
    split <;> exact ht
  · next hnone =>
    refine ⟨?_, ?_⟩
    · intro e he
      rcases List.mem_append.mp he with he | he
      · exact h.texts e he
      · exact ⟨s, by rw [List.mem_singleton.mp he]⟩
    · rw [List.map_append, List.nodup_append]
      refine ⟨h.nodup, by simp, ?_⟩
      intro k hk k' hk' heq
      obtain ⟨e, he, rfl⟩ := List.mem_map.mp hk
      simp only [List.map_cons, List.map_nil, List.mem_singleton] at hk'
      subst hk'
      exact hnone (List.any_eq_true.mpr ⟨e, he, (hsame e he).mpr heq⟩)

/-- The names of a map are those of its members. -/
theorem members_nodup {entries : List (Value × Value)} (h : Named entries) :
    ((Value.map entries).members.map (·.1)).Nodup := by
  have hkeys : ((Value.map entries).members.map (·.1)).map Value.text = entries.map (·.1) := by
    simp only [Value.members]
    have htexts := h.texts
    clear h
    induction entries with
    | nil => rfl
    | cons e es ih =>
      obtain ⟨s, hs⟩ := htexts e List.mem_cons_self
      have ih := ih fun e' he' => htexts e' (List.mem_cons_of_mem _ he')
      simp only [List.filterMap_cons, hs, List.map_cons, List.cons.injEq, true_and]
      exact ih
  exact List.Nodup.of_map _ (hkeys ▸ h.nodup)

end Data

namespace Json

open Data (Value Named named_nil named_insertEntry)

/-- What is no object has no names to keep apart. -/
def Tidy (v : Value) : Prop := ∀ entries, v = .map entries → Named entries

theorem tidy_of_entries {fuel : Nat} {done : List (Value × Value)} {s r : List Char} {v : Value}
    (hd : Named done) (h : entries fuel done s = .ok (v, r)) : Tidy v := by
  induction fuel generalizing done s with
  | zero => simp [entries] at h
  | succ fuel ih =>
    unfold entries at h
    split at h
    · simp only [bind, Except.bind] at h
      split at h
      · cases h
      · split at h
        · split at h
          · cases h
          · split at h
            · cases h
              rintro es ⟨⟩
              exact named_insertEntry hd _ _
            · exact ih (named_insertEntry hd _ _) h
            · cases h
        · cases h
    · cases h

theorem tidy_of_word {s r : List Char} {v : Value} (h : word? s = some (v, r)) : Tidy v := by
  unfold word? at h
  split at h <;> first
    | (cases h; rintro _ ⟨⟩)
    | cases h

theorem tidy_of_number {s r : List Char} {v : Value} (h : number s = .ok (v, r)) : Tidy v := by
  have hfrom : ∀ start negative t, numberFrom start negative t = .ok (v, r) → Tidy v := by
    intro start negative t h
    unfold numberFrom at h
    split at h
    · cases h
    · simp only at h
      split at h
      · split at h
        · cases h
        · cases h
          rintro _ ⟨⟩
      · cases h
        rintro _ ⟨⟩
  unfold number at h
  split at h
  · exact hfrom _ _ _ h
  · exact hfrom _ _ _ h

theorem tidy_of_items {fuel : Nat} {done : List Value} {s r : List Char} {v : Value}
    (h : items fuel done s = .ok (v, r)) : Tidy v := by
  induction fuel generalizing done s with
  | zero => simp [items] at h
  | succ fuel ih =>
    unfold items at h
    simp only [bind, Except.bind] at h
    split at h
    · cases h
    · split at h
      · cases h
        rintro _ ⟨⟩
      · exact ih h
      · cases h

theorem tidy_of_value {fuel : Nat} {s r : List Char} {v : Value}
    (h : value fuel s = .ok (v, r)) : Tidy v := by
  cases fuel with
  | zero => simp [value] at h
  | succ fuel =>
    unfold value at h
    split at h
    · simp only [Except.map] at h
      split at h
      · cases h
      · cases h
        rintro _ ⟨⟩
    · split at h
      · cases h
        rintro _ ⟨⟩
        exact named_nil
      · exact tidy_of_entries named_nil h
    · split at h
      · cases h
        rintro _ ⟨⟩
      · exact tidy_of_items h
    · split at h
      · next p hp =>
        cases h
        exact tidy_of_word hp
      · exact tidy_of_number h

/-- Every object that a text spells has each of its names once. -/
theorem tidy_of_read {s : List Char} {v : Value} (h : read s = .ok v) : Tidy v := by
  have hdoc : document s = .ok v := by
    unfold read Except.mapError at h
    split at h
    · cases h
    · rename_i w hw
      cases h
      exact hw
  unfold document at hdoc
  split at hdoc
  · cases hdoc
  · simp only [bind, Except.bind] at hdoc
    split at hdoc
    · cases hdoc
    · next p hp =>
      obtain ⟨w, r⟩ := p
      split at hdoc
      · cases hdoc
        exact tidy_of_value hp
      · cases hdoc

end Json

end Sourcebook
