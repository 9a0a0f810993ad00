-- Which folders a tree has when everything was put into it, which directories they stand for, and
-- what they are called.
import Mathlib
import Sourcebook.Proofs.Contents.Held

namespace Sourcebook

open Folder (Every)

namespace Folder

variable {g : FolderInfo → FolderInfo}

/-! ## Changing one folder -/

/-- A new folder has nothing inside. -/
theorem find?_new (segment : String) (source : Path) (v : List String) :
    (new segment source).find? v = if v = [] then some (new segment source) else none := by
  cases v with
  | nil => rfl
  | cons s v => rfl

/-- After a change there are the folders that were there, and those on the way. -/
theorem find?_change_isSome (hg : ∀ i, (g i).segment = i.segment) (way v : List String) (f : Folder) :
    ((change (·.withInfo g) way f).find? v).isSome = true ↔ (f.find? v).isSome = true ∨ v <+: way := by
  induction way generalizing v f with
  | nil =>
    cases v with
    | nil => simp [find?]
    | cons s v =>
      rw [List.prefix_nil, or_iff_left (List.cons_ne_nil s v)]
      rfl
  | cons segment way ih =>
    cases v with
    | nil => simp [find?]
    | cons s v =>
      rw [find?, child?_change hg, List.cons_prefix_cons, find?]
      by_cases hs : s = segment
      · subst hs
        rw [if_pos rfl, Option.bind_some, ih]
        cases hc : f.child? s with
        | some c => simp
        | none =>
          have hnil : v = [] → v <+: way := fun h => h ▸ List.nil_prefix
          simpa [find?_new] using hnil
      · rw [if_neg hs]
        simp [hs]

/-- Every folder further down stands for the directory at the end of its way. -/
def Rooted (f : Folder) : Prop :=
  ∀ v a, f.find? v = some a → a.info.source = ⟨f.info.source.root, f.info.source.parts ++ v⟩

theorem rooted_new (segment : String) (source : Path) : (new segment source).Rooted := by
  intro v a h
  rw [find?_new] at h
  by_cases hv : v = []
  · rw [if_pos hv] at h
    cases h
    rw [hv, List.append_nil]
  · rw [if_neg hv] at h
    cases h

theorem Rooted.child {f c : Folder} {segment : String} (h : f.Rooted)
    (hc : f.child? segment = some c) :
    c.info.source = f.sourceInside segment ∧ c.Rooted := by
  have hsource : c.info.source = f.sourceInside segment := h [segment] c (by rw [find?, hc]; rfl)
  refine ⟨hsource, fun v a ha => ?_⟩
  rw [h (segment :: v) a (by rw [find?, hc]; exact ha), hsource, sourceInside]
  simp

theorem change_source (hs : ∀ i, (g i).source = i.source) (way : List String) (f : Folder) :
    (change (·.withInfo g) way f).info.source = f.info.source := by
  cases way with
  | nil => exact hs f.info
  | cons segment way => rw [change_info]

theorem rooted_change (hg : ∀ i, (g i).segment = i.segment) (hs : ∀ i, (g i).source = i.source)
    (way : List String) {f : Folder} (h : f.Rooted) : (change (·.withInfo g) way f).Rooted := by
  induction way generalizing f with
  | nil =>
    intro v a ha
    rw [change_source hs]
    cases v with
    | nil =>
      cases ha
      rw [List.append_nil]
      exact hs f.info
    | cons s v => exact h (s :: v) a ha
  | cons segment way ih =>
    intro v a ha
    rw [change_source hs]
    cases v with
    | nil =>
      cases ha
      rw [List.append_nil, change_info]
    | cons s v =>
      rw [find?, child?_change hg] at ha
      by_cases hsegment : s = segment
      · subst hsegment
        rw [if_pos rfl, Option.bind_some] at ha
        have hold : ((f.child? s).getD (.new s (f.sourceInside s))).info.source = f.sourceInside s ∧
            ((f.child? s).getD (.new s (f.sourceInside s))).Rooted := by
          cases hc : f.child? s with
          | some c => exact h.child hc
          | none => exact ⟨rfl, rooted_new s _⟩
        rw [ih hold.2 v a ha, change_source hs, hold.1, sourceInside]
        simp
      · rw [if_neg hsegment] at ha
        exact h (s :: v) a ha

end Folder

namespace Tree

variable {source : Path} {metaName : String} {additions : List Addition}

/-- The folders of a tree are those on the ways of what was put into it. -/
theorem made_find?_isSome (v : List String) :
    ((made source metaName additions).root.find? v).isSome = true ↔
      v = [] ∨ ∃ a ∈ additions, v <+: a.way := by
  induction additions using List.reverseRecOn with
  | nil =>
    rw [show (made source metaName []).root = .new "root" source from rfl, Folder.find?_new]
    by_cases hv : v = []
    · simp [hv]
    · simp [hv]
  | append_singleton as a ih =>
    rw [made_snoc, add_root, Folder.find?_change_isSome a.effect_segment, ih, or_assoc]
    simp [or_and_right, exists_or]

theorem made_root_segment : (made source metaName additions).root.segment = "root" := by
  induction additions using List.reverseRecOn with
  | nil => rfl
  | append_singleton as a ih => rw [made_snoc, add_root, Folder.change_segment a.effect_segment, ih]

/-- Folders are called by their names. -/
theorem made_labels : Every (fun f => f.info.label = f.segment) (made source metaName additions).root := by
  induction additions using List.reverseRecOn with
  | nil => exact .mk rfl fun c hc => absurd hc List.not_mem_nil
  | append_singleton as a ih =>
    rw [made_snoc, add_root]
    refine Folder.change_every (N := fun _ => True) a.effect_segment (fun i cs h => ?_)
      (fun _ _ _ _ _ _ h => h) (fun _ _ _ _ _ h => h) (fun _ _ => rfl) (fun _ _ => trivial) ih
    cases a with
    | chapter c path =>
      change (ite _ _ _ : FolderInfo).label = (ite _ _ _ : FolderInfo).segment
      split <;> exact h
    | page p path => exact h
    | mount path dir => exact h

/-- Without mounts, every folder stands for the directory at the end of its way. -/
theorem made_rooted (h : ∀ a ∈ additions, ∀ i, (a.effect i).source = i.source) :
    (made source metaName additions).root.info.source = source ∧
      (made source metaName additions).root.Rooted := by
  induction additions using List.reverseRecOn with
  | nil => exact ⟨rfl, Folder.rooted_new "root" source⟩
  | append_singleton as a ih =>
    have hsource := h a (by simp)
    obtain ⟨hroot, hrooted⟩ := ih fun b hb => h b (by simp [hb])
    rw [made_snoc, add_root, Folder.change_source hsource]
    exact ⟨hroot, Folder.rooted_change a.effect_segment hsource a.way hrooted⟩

end Tree

end Sourcebook
