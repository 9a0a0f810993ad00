-- Paths and their parts: what a text gives as parts, and what comes back from them. A way of
-- names that lead down stays below the place where it starts.
import Mathlib
import Sourcebook.Disk.Path
import Sourcebook.Proofs.Text.Pieces

namespace Sourcebook

/-- The names of a place on a disk: none is a parent step or has a slash in it. -/
def Location.Named (l : Location) : Prop := ∀ n ∈ l, n ≠ ".." ∧ '/' ∉ n.toList

instance (l : Location) : Decidable l.Named := List.decidableBAll _ _

/-- A name that leads down, written in a path between slashes. -/
def LeadsDown (n : String) : Prop := n ≠ "" ∧ '/' ∉ n.toList ∧ n ≠ ".."

namespace Path

/-- A part of a path is a name. -/
theorem mem_partsOf {s : List Char} {part : String} (h : part ∈ partsOf s) :
    part ≠ "" ∧ '/' ∉ part.toList := by
  unfold partsOf at h
  obtain ⟨piece, hpiece, rfl⟩ := List.mem_map.mp h
  obtain ⟨hmem, hp⟩ := List.mem_filter.mp hpiece
  rw [String.toList_ofList]
  refine ⟨fun he => ?_, Text.not_mem_of_mem_splitOn hmem⟩
  have hnil : piece = [] := by
    rw [← String.toList_ofList (l := piece), he]
    rfl
  simp [hnil] at hp

theorem intercalate_toList (names : List String) :
    ("/".intercalate names).toList = Text.joinWith '/' (names.map String.toList) := by
  rw [String.toList_intercalate, Text.joinWith_eq_intercalate]
  rfl

theorem slash_not_mem_pieces {names : List String} (hslash : ∀ n ∈ names, '/' ∉ n.toList) :
    ∀ p ∈ names.map String.toList, '/' ∉ p := by
  intro p hp
  obtain ⟨n, hn, rfl⟩ := List.mem_map.mp hp
  exact hslash n hn

/-- What follows a slash in a path with one in front is the end of the path from some name on. -/
theorem suffix_intercalate {names : List String} (hne : names ≠ [])
    (hslash : ∀ n ∈ names, '/' ∉ n.toList) {t : List Char} :
    '/' :: t <:+ '/' :: ("/".intercalate names).toList ↔
      ∃ rest, rest ≠ [] ∧ rest <:+ names ∧ t = ("/".intercalate rest).toList := by
  rw [intercalate_toList, Text.suffix_joinWith (by simpa using hne) (slash_not_mem_pieces hslash)]
  constructor
  · rintro ⟨qs, hqs, ⟨before, hbefore⟩, rfl⟩
    obtain ⟨front, rest, rfl, rfl, rfl⟩ := List.map_eq_append_iff.mp hbefore.symm
    refine ⟨rest, by simpa using hqs, List.suffix_append front rest, ?_⟩
    rw [intercalate_toList]
  · rintro ⟨rest, hrest, hsuffix, rfl⟩
    refine ⟨rest.map String.toList, by simpa using hrest, hsuffix.map _, ?_⟩
    rw [intercalate_toList]

/-- Names without slashes come back from the path that they are joined to. -/
theorem splitOn_intercalate {names : List String} (hne : names ≠ [])
    (hslash : ∀ n ∈ names, '/' ∉ n.toList) :
    Text.splitOn '/' ("/".intercalate names).toList = names.map String.toList := by
  rw [intercalate_toList, Text.splitOn_joinWith (by simpa using hne) (slash_not_mem_pieces hslash)]

theorem intercalate_inj {names more : List String} (hne : names ≠ [])
    (hslash : ∀ n ∈ names, '/' ∉ n.toList) (hmore : more ≠ [])
    (hslash' : ∀ n ∈ more, '/' ∉ n.toList)
    (h : ("/".intercalate names).toList = ("/".intercalate more).toList) : names = more := by
  have hsplit := congrArg (Text.splitOn '/') h
  rw [splitOn_intercalate hne hslash, splitOn_intercalate hmore hslash'] at hsplit
  exact List.map_injective_iff.mpr (fun _ _ => String.toList_inj.mp) hsplit

/-- Names that are joined give no other parts. -/
theorem mem_of_mem_partsOf_intercalate {names : List String} (h : ∀ n ∈ names, '/' ∉ n.toList)
    {part : String} (hp : part ∈ partsOf ("/".intercalate names).toList) : part ∈ names := by
  cases names with
  | nil => simp [partsOf, Text.splitOn] at hp
  | cons n rest =>
    unfold partsOf at hp
    rw [splitOn_intercalate (by simp) h] at hp
    obtain ⟨piece, hpiece, rfl⟩ := List.mem_map.mp hp
    obtain ⟨m, hm, rfl⟩ := List.mem_map.mp (List.mem_of_mem_filter hpiece)
    simpa using hm

theorem rootOf_of_ne {c : Char} {s : List Char} (h : c ≠ '/') : rootOf (c :: s) = .none := by
  unfold rootOf
  split
  · next he => exact absurd (List.cons.inj he).1 h
  · next he => exact absurd (List.cons.inj he).1 h
  · next he => exact absurd (List.cons.inj he).1 h
  · rfl

/-- What starts with a name is written as a relative path. -/
theorem rootOf_intercalate_cons {n : String} (hne : n ≠ "") (hslash : '/' ∉ n.toList)
    (rest : List String) : rootOf ("/".intercalate (n :: rest)).toList = .none := by
  cases hn : n.toList with
  | nil => exact absurd (String.toList_eq_nil_iff.mp hn) hne
  | cons c cs =>
    have hc : c ≠ '/' := fun he => hslash (by rw [hn, he]; exact List.mem_cons_self)
    rw [intercalate_toList, List.map_cons, hn]
    cases rest with
    | nil => exact rootOf_of_ne hc
    | cons m ms => exact rootOf_of_ne hc

/-- Names that lead down are written as a relative path. -/
theorem rootOf_intercalate {names : List String} (h : ∀ n ∈ names, LeadsDown n) :
    rootOf ("/".intercalate names).toList = .none := by
  cases names with
  | nil => rfl
  | cons n rest =>
    obtain ⟨hne, hslash, -⟩ := h n List.mem_cons_self
    exact rootOf_intercalate_cons hne hslash rest

end Path

namespace Location

theorem walk_snoc (l : Location) (parts : List String) (part : String) :
    walk l (parts ++ [part]) = step (walk l parts) part := by
  simp [walk, List.foldl_append]

/-- A walk has only the names that it takes or starts with. -/
theorem mem_walk {start : Location} {parts : List String} {n : String} (h : n ∈ walk start parts) :
    n ∈ start ∨ n ∈ parts ∧ n ≠ ".." := by
  induction parts using List.reverseRecOn with
  | nil => exact Or.inl h
  | append_singleton parts part ih =>
    rw [walk_snoc] at h
    unfold step at h
    split at h
    · rcases ih (List.mem_of_mem_dropLast h) with h | ⟨h, hne⟩
      · exact Or.inl h
      · exact Or.inr ⟨List.mem_append_left _ h, hne⟩
    · next hpart =>
      rcases List.mem_append.mp h with h | h
      · rcases ih h with h | ⟨h, hne⟩
        · exact Or.inl h
        · exact Or.inr ⟨List.mem_append_left _ h, hne⟩
      · obtain rfl := List.mem_singleton.mp h
        exact Or.inr ⟨by simp, by simpa using hpart⟩

theorem mem_walk_nil {parts : List String} {n : String} (h : n ∈ walk [] parts) :
    n ∈ parts ∧ n ≠ ".." :=
  (mem_walk h).resolve_left List.not_mem_nil

/-- Without parent steps a walk goes down. -/
theorem walk_down {start : Location} {parts : List String} (h : ".." ∉ parts) :
    walk start parts = start ++ parts := by
  induction parts generalizing start with
  | nil => simp [walk]
  | cons part rest ih =>
    rw [List.mem_cons, not_or] at h
    have hstep : step start part = start ++ [part] := by
      unfold step
      rw [if_neg (by simpa using Ne.symm h.1)]
    change walk (step start part) rest = _
    rw [ih h.2, hstep, List.append_assoc, List.singleton_append]

theorem Named.walk_eq {l : Location} (h : l.Named) : walk [] l = l :=
  walk_down fun hp => (h _ hp).1 rfl

theorem mem_below? {dir l : Location} {names : List String} (h : below? dir l = some names) {n : String}
    (hn : n ∈ names) : n ∈ l := by
  unfold below? at h
  split at h
  · cases h
    exact List.mem_of_mem_drop hn
  · cases h

end Location

theorem Path.normal_eq (p : Path) : p.normal [] = Location.walk [] p.parts := by
  unfold Path.normal
  split <;> rfl

theorem Path.join_of_relative {p q : Path} (hroot : q.root = .none) :
    p.join q = ⟨p.root, p.parts ++ q.parts⟩ := by
  unfold Path.join Path.isAbsolute
  rw [hroot]
  rfl

/-- A relative path without parent steps leads below the place that it is joined to. -/
theorem Path.normal_join {p q : Path} (hroot : q.root = .none) (h : ".." ∉ q.parts) :
    (p.join q).normal [] = p.normal [] ++ q.parts := by
  rw [join_of_relative hroot, Path.normal_eq, Path.normal_eq, Location.walk_append,
    Location.walk_down h]

end Sourcebook
