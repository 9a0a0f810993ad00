-- Paths without their parent steps. The steps are taken back one by one, and whatever their order, one
-- and the same place is left; a link leads from a directory to the place that is left of its target.
import Mathlib
import Sourcebook.Proofs.Disk.Links

namespace Sourcebook

open Relation (ReflTransGen)

/-! ## Taking parent steps back -/

/-- One parent step of a path from the root is taken back: it goes with the name before it, and alone
where nothing is before it, since the root is its own parent. -/
inductive TakesBack : List String → List String → Prop
  | name (before : List String) {n : String} (hn : n ≠ "..") (behind : List String) :
    TakesBack (before ++ n :: ".." :: behind) (before ++ behind)
  | root (behind : List String) : TakesBack (".." :: behind) behind

/-- What is left of the parts of a path when every parent step was taken back. -/
structure Leaves (parts : List String) (l : Location) : Prop where
  steps : ReflTransGen TakesBack parts l
  none_left : ".." ∉ l

variable {parts parts' : List String} {l : Location}

theorem Location.step_name {n : String} (hn : n ≠ "..") (l : Location) : step l n = l ++ [n] := by
  unfold step
  rw [if_neg (by simpa using hn)]

theorem TakesBack.walk_eq (h : TakesBack parts parts') :
    Location.walk [] parts = Location.walk [] parts' := by
  cases h with
  | name before hn behind =>
    have hback : ∀ w : Location, Location.step (Location.step w _) ".." = w := fun w => by
      rw [Location.step_name hn]
      exact List.dropLast_concat
    rw [Location.walk_append, Location.walk_append]
    exact congrArg (Location.walk · behind) (hback _)
  | root behind => rfl

/-- A walk takes the parent steps back from the left. -/
theorem takesBack_walk (hl : ".." ∉ l) (parts : List String) :
    ReflTransGen TakesBack (l ++ parts) (Location.walk l parts) := by
  induction parts generalizing l with
  | nil =>
    rw [List.append_nil]
    exact .refl
  | cons part rest ih =>
    change ReflTransGen TakesBack _ (Location.walk (Location.step l part) rest)
    by_cases hpart : part = ".."
    · subst hpart
      rcases List.eq_nil_or_concat' l with rfl | ⟨front, n, rfl⟩
      · exact .head (.root rest) (ih hl)
      · rw [List.mem_append, not_or, List.mem_singleton] at hl
        rw [show Location.step (front ++ [n]) ".." = front from List.dropLast_concat,
          List.append_assoc]
        exact .head (.name front (Ne.symm hl.2) rest) (ih hl.1)
    · have hnext : ".." ∉ l ++ [part] := by
        rw [List.mem_append, not_or, List.mem_singleton]
        exact ⟨hl, Ne.symm hpart⟩
      rw [Location.step_name hpart, ← List.singleton_append, ← List.append_assoc]
      exact ih hnext

/-- In whatever order the parent steps are taken back, the place that a walk comes to is left. -/
theorem leaves_iff : Leaves parts l ↔ Location.walk [] parts = l := by
  constructor
  · rintro ⟨hsteps, hnone⟩
    have hwalk : Location.walk [] parts = Location.walk [] l := by
      induction hsteps using ReflTransGen.head_induction_on with
      | refl => rfl
      | head hone _ ih => exact hone.walk_eq.trans ih
    rw [hwalk, Location.walk_down hnone, List.nil_append]
  · rintro rfl
    exact ⟨takesBack_walk List.not_mem_nil parts, fun hup => (Location.mem_walk_nil hup).2 rfl⟩

theorem Path.leaves_parts {p : Path} : Leaves p.parts l ↔ l = p.normal [] := by
  rw [leaves_iff, normal_eq, eq_comm]

/-! ## Links -/

namespace Location

theorem sharedLength_self (l : Location) : sharedLength l l = l.length := by
  induction l with
  | nil => rfl
  | cons n l ih => rw [sharedLength, if_pos rfl, ih, List.length_cons]

/-- No step leads from a place to itself, and some to every other place. -/
theorem linkSteps_eq_nil {target start : Location} (h : ".." ∉ target) :
    linkSteps target start = [] ↔ target = start := by
  constructor
  · intro hnil
    rw [← walk_linkSteps h start, hnil]
    rfl
  · rintro rfl
    simp [linkSteps, sharedLength_self]

theorem linkParts_of_ne {target start : Location} (h : linkSteps target start ≠ []) :
    linkParts target start = linkSteps target start := by
  unfold linkParts
  split
  · next hnil => exact absurd hnil h
  · rfl

end Location

namespace Path

variable {target start : Path}

/-- The names of a link are its steps, or a dot where there is none. -/
theorem splitOn_link (h : target.Spelled) (start : Path) :
    Text.splitOn '/' (link target start).toList =
      (Location.linkParts (target.normal []) (start.normal [])).map String.toList := by
  obtain ⟨n, rest, he, -, hslash⟩ :=
    Location.linkParts_cons (fun n hn => (h.normal hn).1) (start.normal [])
  rw [link, Location.link_eq, he, splitOn_intercalate (List.cons_ne_nil n rest) hslash]

theorem link_relative (h : target.Spelled) (start : Path) :
    (ofString (link target start)).root = .none := by
  obtain ⟨n, rest, he, hne, hslash⟩ :=
    Location.linkParts_cons (fun n hn => (h.normal hn).1) (start.normal [])
  rw [link, Location.link_eq, he]
  exact rootOf_intercalate_cons hne (hslash n List.mem_cons_self) rest

/-- A link is a dot where it leads to its own directory, and only there. -/
theorem link_eq_dot (h : target.Spelled) (start : Path) :
    link target start = "." ↔ target.normal [] = start.normal [] := by
  have hup : ".." ∉ target.normal [] := fun hp => (h.normal hp).2 rfl
  rw [← Location.linkSteps_eq_nil hup]
  constructor
  · intro hdot
    have hparts : ∀ n ∈ target.normal [], IsPart n := fun n hn => (h.normal hn).1
    have hsplit := splitOn_link h start
    rw [hdot] at hsplit
    have hone : Location.linkParts (target.normal []) (start.normal []) = ["."] :=
      List.map_injective_iff.mpr (fun _ _ => String.toList_inj.mp) hsplit.symm
    rw [← Location.filter_linkParts hparts, hone]
    rfl
  · intro hnil
    rw [link, Location.link_eq, Location.linkParts, hnil]
    rfl

/-- Any other link has the steps of the way as its names. -/
theorem splitOn_link_of_ne (h : target.Spelled) (hne : link target start ≠ ".") :
    Text.splitOn '/' (link target start).toList =
      (Location.linkSteps (target.normal []) (start.normal [])).map String.toList := by
  have hup : ".." ∉ target.normal [] := fun hp => (h.normal hp).2 rfl
  have hsteps : Location.linkSteps (target.normal []) (start.normal []) ≠ [] := fun hnil =>
    hne ((link_eq_dot h start).mpr ((Location.linkSteps_eq_nil hup).mp hnil))
  rw [splitOn_link h, Location.linkParts_of_ne hsteps]

/-- A link that is followed from its directory leads to its target. -/
theorem join_link (h : target.Spelled) (start : Path) :
    (start.join (ofString (link target start))).normal [] = target.normal [] := by
  have hleads := link_leads h start
  rw [normal_of_relative (link_relative h start)] at hleads
  rw [join_of_relative (link_relative h start), normal_eq, Location.walk_append, ← normal_eq]
  exact hleads

/-- A link leads back: from its directory it comes to the place that its target comes to, when the
parent steps of both are taken back. It is a dot where directory and target are one place, and there
alone; anywhere else it is some parent steps, or none, and then names that are no steps. -/
theorem links_lead_back_to_their_targets {target start : String}
    (ht : (ofString target).root = .single) (hs : (ofString start).root = .single) :
    let goal := (ofString target).normal []
    let directory := (ofString start).normal []
    let text := link (ofString target) (ofString start)
    let followed := (ofString start).join (ofString text)
    (∀ l, Leaves (ofString target).parts l ↔ l = goal) ∧
    (∀ l, Leaves (ofString start).parts l ↔ l = directory) ∧
    followed.root = (ofString target).root ∧ (∀ l, Leaves followed.parts l ↔ l = goal) ∧
    (text = "." ↔ goal = directory) ∧
    (text ≠ "." → ∃ n names,
      Text.splitOn '/' text.toList = (List.replicate n ".." ++ names).map String.toList ∧
      ∀ name ∈ names, name ≠ "" ∧ name ≠ "." ∧ name ≠ "..") := by
  intro goal directory text followed
  have hspelled := spelled_ofString target
  have hroot : followed.root = (ofString target).root := by
    rw [show followed = _ from join_of_relative (link_relative hspelled _), ht]
    exact hs
  refine ⟨fun l => leaves_parts, fun l => leaves_parts, hroot, fun l => ?_, link_eq_dot hspelled _,
    fun hdot => ?_⟩
  · rw [leaves_parts, join_link hspelled]
  · refine ⟨_, _, splitOn_link_of_ne hspelled hdot, fun name hname => ?_⟩
    obtain ⟨hpart, hup⟩ := hspelled.normal (List.mem_of_mem_drop hname)
    exact ⟨hpart.1, hpart.2.1, hup⟩

/-- A link to a place outside of its directory, from paths that are written with detours: it goes up to
the part that both share, which is the root and one name. -/
theorem a_link_passes_the_detours_of_both_paths :
    let target := "/../docs/./api//v1/../v2/x.md"
    let start := "/docs/chapters/../pages/"
    (ofString target).root = .single ∧ (ofString start).root = .single ∧
      link (ofString target) (ofString start) = "../api/v2/x.md" ∧
      ∀ l, Leaves ["docs", "chapters", "..", "pages", "..", "api", "v2", "x.md"] l ↔
        l = ["docs", "api", "v2", "x.md"] := by
  intro target start
  have ht : (ofString target).root = .single := by decide +kernel
  have hs : (ofString start).root = .single := by decide +kernel
  have hlink : link (ofString target) (ofString start) = "../api/v2/x.md" := by decide +kernel
  have hgoal : (ofString target).normal [] = ["docs", "api", "v2", "x.md"] := by decide +kernel
  have hparts : ((ofString start).join (ofString "../api/v2/x.md")).parts =
      ["docs", "chapters", "..", "pages", "..", "api", "v2", "x.md"] := by decide +kernel
  obtain ⟨-, -, -, hleaves, -⟩ := links_lead_back_to_their_targets ht hs
  rw [hlink, hgoal, hparts] at hleaves
  exact ⟨ht, hs, hlink, hleaves⟩

end Path

end Sourcebook
