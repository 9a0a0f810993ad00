-- Links between places: a link that is followed from its directory leads to the place that it was
-- made for.
import Mathlib
import Sourcebook.Proofs.Disk.Paths

namespace Sourcebook

/-- A part as paths have it between their slashes. -/
def IsPart (n : String) : Prop := n ≠ "" ∧ n ≠ "." ∧ '/' ∉ n.toList

instance (n : String) : Decidable (IsPart n) := inferInstanceAs (Decidable (_ ∧ _ ∧ _))

theorem isPart_parentStep : IsPart ".." := by decide

/-! ## Parts and their text -/

namespace Path

/-- The parts of a path are parts that a text can give. -/
def Spelled (p : Path) : Prop := ∀ n ∈ p.parts, IsPart n

instance (p : Path) : Decidable p.Spelled := List.decidableBAll _ _

theorem isPart_of_mem_partsOf {s : List Char} {part : String} (h : part ∈ partsOf s) :
    IsPart part := by
  obtain ⟨hne, hslash⟩ := mem_partsOf h
  refine ⟨hne, ?_, hslash⟩
  unfold partsOf at h
  obtain ⟨piece, hpiece, rfl⟩ := List.mem_map.mp h
  have hdot := (List.mem_filter.mp hpiece).2
  intro he
  have hpiece : piece = ['.'] := by
    rw [← String.toList_ofList (l := piece), he]
    rfl
  simp [hpiece] at hdot

theorem spelled_ofString (s : String) : (ofString s).Spelled := fun _ h => isPart_of_mem_partsOf h

theorem Spelled.join {p q : Path} (hp : p.Spelled) (hq : q.Spelled) : (p.join q).Spelled := by
  unfold Path.join
  split
  · exact hq
  · intro n hn
    rcases List.mem_append.mp hn with hn | hn
    · exact hp n hn
    · exact hq n hn

/-- The names of the place that a spelled path leads to are parts, and none is a parent step. -/
theorem Spelled.normal {p : Path} (h : p.Spelled) {n : String} (hn : n ∈ p.normal []) :
    IsPart n ∧ n ≠ ".." := by
  rw [normal_eq] at hn
  obtain ⟨hn, hne⟩ := Location.mem_walk_nil hn
  exact ⟨h n hn, hne⟩

/-- Of names that are joined, the parts come back. -/
theorem partsOf_intercalate {names : List String} (h : ∀ n ∈ names, '/' ∉ n.toList) :
    partsOf ("/".intercalate names).toList = names.filter fun n => n != "" && n != "." := by
  cases names with
  | nil => simp [partsOf, Text.splitOn]
  | cons n rest =>
    have hkeep : ((fun p : List Char => !p.isEmpty && p != ['.']) ∘ String.toList) =
        fun n : String => n != "" && n != "." := by
      funext m
      have hempty : m.toList.isEmpty = (m == "") := by
        rw [Bool.eq_iff_iff, List.isEmpty_iff, String.toList_eq_nil_iff, beq_iff_eq]
      have hdot : (m.toList == ['.']) = (m == ".") := by
        rw [Bool.eq_iff_iff, beq_iff_eq, beq_iff_eq, ← String.toList_inj]
        rfl
      simp only [Function.comp_apply, bne, hempty, hdot]
    unfold partsOf
    rw [splitOn_intercalate (by simp) h, List.filter_map, List.map_map, hkeep]
    exact (List.map_congr_left fun m _ => String.ofList_toList).trans (List.map_id _)

theorem partsOf_of_parts {names : List String} (h : ∀ n ∈ names, IsPart n) :
    partsOf ("/".intercalate names).toList = names := by
  rw [partsOf_intercalate fun n hn => (h n hn).2.2, List.filter_eq_self]
  intro n hn
  simp [(h n hn).1, (h n hn).2.1]

/-- Parts that are joined are read back as a relative path. -/
theorem ofString_of_parts {names : List String} (h : ∀ n ∈ names, IsPart n) :
    ofString ("/".intercalate names) = ⟨.none, names⟩ := by
  have hroot : rootOf ("/".intercalate names).toList = .none := by
    cases names with
    | nil => rfl
    | cons n rest =>
      obtain ⟨hne, -, hslash⟩ := h n List.mem_cons_self
      exact rootOf_intercalate_cons hne hslash rest
  unfold ofString
  rw [hroot, partsOf_of_parts h]

theorem ofString_intercalate {names : List String} (h : ∀ n ∈ names, LeadsDown n ∧ IsPart n) :
    ofString ("/".intercalate names) = ⟨.none, names⟩ :=
  ofString_of_parts fun n hn => (h n hn).2

/-- Names that lead down are followed from a path one after the other. -/
theorem normal_join_intercalate (p : Path) {names : List String}
    (h : ∀ n ∈ names, LeadsDown n ∧ IsPart n) :
    (p.join (ofString ("/".intercalate names))).normal [] = p.normal [] ++ names := by
  rw [ofString_intercalate h]
  exact normal_join rfl fun hp => (h _ hp).1.2.2 rfl

end Path

/-! ## Steps -/

namespace Location

theorem take_sharedLength (a b : Location) :
    a.take (sharedLength a b) = b.take (sharedLength a b) := by
  induction a generalizing b with
  | nil => simp [sharedLength]
  | cons x a ih =>
    cases b with
    | nil => rfl
    | cons y b =>
      unfold sharedLength
      split
      · next he =>
        rw [he, List.take_succ_cons, List.take_succ_cons, ih b]
      · rfl

theorem sharedLength_le (a b : Location) : sharedLength a b ≤ a.length := by
  induction a generalizing b with
  | nil => simp [sharedLength]
  | cons x a ih =>
    cases b with
    | nil => exact Nat.zero_le _
    | cons y b =>
      unfold sharedLength
      split
      · exact Nat.succ_le_succ (ih b)
      · exact Nat.zero_le _

theorem walk_up (l : Location) (n : Nat) :
    walk l (List.replicate n "..") = l.take (l.length - n) := by
  induction n generalizing l with
  | zero => simp [walk]
  | succ n ih =>
    change walk (step l "..") (List.replicate n "..") = _
    rw [show step l ".." = l.dropLast from rfl, ih, List.dropLast_eq_take, List.take_take]
    congr 1
    rw [List.length_take]
    omega

/-- The steps from a directory to a place lead there. -/
theorem walk_linkSteps {target : Location} (h : ".." ∉ target) (start : Location) :
    walk start (linkSteps target start) = target := by
  have hle := sharedLength_le start target
  unfold linkSteps
  rw [walk_append, walk_up, walk_down fun hp => h (List.mem_of_mem_drop hp), Nat.sub_sub_self hle,
    take_sharedLength, List.take_append_drop]

/-- The names in the text of a link. -/
def linkParts (target start : Location) : List String :=
  match linkSteps target start with
  | [] => ["."]
  | steps => steps

theorem link_eq (target start : Location) :
    link target start = "/".intercalate (linkParts target start) := by
  unfold link linkParts
  cases linkSteps target start with
  | nil => rfl
  | cons n rest => rfl

theorem filter_linkParts {target : Location} (h : ∀ n ∈ target, IsPart n) (start : Location) :
    ((linkParts target start).filter fun n => n != "" && n != ".") = linkSteps target start := by
  have hsteps : ∀ n ∈ linkSteps target start, IsPart n := by
    intro n hn
    rcases List.mem_append.mp hn with hn | hn
    · rw [List.eq_of_mem_replicate hn]
      exact isPart_parentStep
    · exact h n (List.mem_of_mem_drop hn)
  unfold linkParts
  split
  · next he =>
    rw [he]
    rfl
  · rw [List.filter_eq_self]
    intro n hn
    simp [(hsteps n hn).1, (hsteps n hn).2.1]

theorem linkParts_cons {target : Location} (h : ∀ n ∈ target, IsPart n) (start : Location) :
    ∃ n rest, linkParts target start = n :: rest ∧ n ≠ "" ∧ (∀ m ∈ n :: rest, '/' ∉ m.toList) := by
  have hsteps : ∀ n ∈ linkSteps target start, n ≠ "" ∧ '/' ∉ n.toList := by
    intro n hn
    rcases List.mem_append.mp hn with hn | hn
    · rw [List.eq_of_mem_replicate hn]
      exact ⟨by decide, by decide⟩
    · exact ⟨(h n (List.mem_of_mem_drop hn)).1, (h n (List.mem_of_mem_drop hn)).2.2⟩
  unfold linkParts
  cases hs : linkSteps target start with
  | nil => exact ⟨".", [], rfl, by decide, by decide⟩
  | cons n rest =>
    rw [hs] at hsteps
    exact ⟨n, rest, rfl, (hsteps n List.mem_cons_self).1, fun m hm => (hsteps m hm).2⟩

end Location

/-! ## Links -/

namespace Path

/-- What follows a relative text from a directory. -/
theorem normal_of_relative {text : String} (h : rootOf text.toList = .none) (cwd : Location) :
    (ofString text).normal cwd = Location.walk cwd (partsOf text.toList) := by
  unfold normal isAbsolute ofString
  rw [h]
  rfl

/-- A link leads from its directory to its target. -/
theorem link_leads {target : Path} (h : target.Spelled) (start : Path) :
    (ofString (link target start)).normal (start.normal []) = target.normal [] := by
  have hparts : ∀ n ∈ target.normal [], IsPart n := fun n hn => (h.normal hn).1
  obtain ⟨n, rest, he, hne, hslash⟩ := Location.linkParts_cons hparts (start.normal [])
  have htext : link target start = "/".intercalate (n :: rest) := by
    rw [link, Location.link_eq, he]
  rw [htext, normal_of_relative (rootOf_intercalate_cons hne (hslash n List.mem_cons_self) rest),
    partsOf_intercalate hslash, ← he, Location.filter_linkParts hparts]
  exact Location.walk_linkSteps (fun hp => (h.normal hp).2 rfl) _

/-- A slash at the end of a link changes nothing. -/
theorem folderLink_leads {target : Path} (h : target.Spelled) (start : Path) :
    (ofString (link target start ++ "/")).normal (start.normal []) = target.normal [] := by
  have hparts : ∀ n ∈ target.normal [], IsPart n := fun n hn => (h.normal hn).1
  obtain ⟨n, rest, he, hne, hslash⟩ := Location.linkParts_cons hparts (start.normal [])
  have htext : link target start ++ "/" = "/".intercalate (n :: (rest ++ [""])) := by
    apply String.toList_injective
    rw [link, Location.link_eq, he, String.toList_append, intercalate_toList, intercalate_toList,
      ← List.cons_append, List.map_append, List.map_singleton, Text.joinWith_snoc (by simp)]
    rfl
  have hslash' : ∀ m ∈ n :: (rest ++ [""]), '/' ∉ m.toList := by
    intro m hm
    rw [← List.cons_append] at hm
    rcases List.mem_append.mp hm with hm | hm
    · exact hslash m hm
    · rw [List.mem_singleton.mp hm]
      decide
  rw [htext, normal_of_relative (rootOf_intercalate_cons hne (hslash n List.mem_cons_self) _),
    partsOf_intercalate hslash', ← List.cons_append, ← he, List.filter_append,
    Location.filter_linkParts hparts]
  simp only [List.filter_singleton, bne_self_eq_false, Bool.false_and, cond_false, List.append_nil]
  exact Location.walk_linkSteps (fun hp => (h.normal hp).2 rfl) _

end Path

end Sourcebook
