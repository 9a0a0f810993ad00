-- What becomes of a folder when the folders above it have their turn: it can get another label,
-- and it can lose chapters, here and further down. Everything else stays as it was.
import Mathlib
import Sourcebook.Proofs.Contents.Arranged

namespace Sourcebook

open Folder (Lost Every Tidy)

namespace Folder

/-- One thing that a folder above does to a folder. -/
inductive Touched : Folder → Folder → Prop
  | lost {id : String} {way : List String} {f g : Folder} : Lost id way f g → Touched f g
  | label (f : Folder) (l : String) : Touched f (f.withInfo fun i => { i with label := l })

/-- What folders above do to a folder, in their turns. -/
def Worn : Folder → Folder → Prop := Relation.ReflTransGen Touched

/-! ## The folder itself -/

theorem Touched.segment {f g : Folder} (h : Touched f g) : g.segment = f.segment := by
  cases h with
  | lost hl => exact hl.segment_eq
  | label f l => rfl

/-- The names and the labels of folders. -/
def labels (cs : List Folder) : List (String × String) := cs.map fun c => (c.segment, c.info.label)

theorem segments_of_labels {cs ds : List Folder} (h : labels cs = labels ds) :
    cs.map segment = ds.map segment := by
  have hfst : ∀ es : List Folder, (labels es).map (·.1) = es.map segment := by
    intro es
    simp [labels, Function.comp_def]
  rw [← hfst, h, hfst]

theorem Lost.label {id : String} {way : List String} {f g : Folder} (h : Lost id way f g) :
    g.info.label = f.info.label := by
  cases h with
  | here _ => rfl
  | inside _ _ => rfl

theorem Touched.labels {f g : Folder} (h : Touched f g) : labels g.children = labels f.children := by
  cases h with
  | lost hl =>
    cases hl with
    | here _ => rfl
    | inside _ hl => simp [Folder.labels, hl.segment_eq, hl.label]
  | label f l => rfl

/-- Items that a folder lists, but for chapters that it lost. -/
def Thinned (items kept : List Item) : Prop :=
  ∃ p : Item → Bool, (∀ item, p item = false → ∃ id, item = .chapter id) ∧ kept = items.filter p

theorem Thinned.refl (items : List Item) : Thinned items items :=
  ⟨fun _ => true, fun _ h => Bool.noConfusion h, by simp⟩

theorem Thinned.trans {items kept rest : List Item} (h1 : Thinned items kept)
    (h2 : Thinned kept rest) : Thinned items rest := by
  obtain ⟨p, hp, rfl⟩ := h1
  obtain ⟨q, hq, rfl⟩ := h2
  refine ⟨fun item => q item && p item, fun item h => ?_, List.filter_filter⟩
  rcases Bool.and_eq_false_iff.mp h with h | h
  · exact hq item h
  · exact hp item h

theorem Touched.items {f g : Folder} (h : Touched f g) : Thinned f.info.items g.info.items := by
  cases h with
  | lost hl =>
    cases hl with
    | @here info children _ => exact ⟨_, fun item hitem => ⟨_, by simpa using hitem⟩, rfl⟩
    | inside _ _ => exact .refl _
  | label f l => exact .refl _

namespace Worn

variable {f g h : Folder}

theorem refl (f : Folder) : Worn f f := Relation.ReflTransGen.refl

theorem trans (h1 : Worn f g) (h2 : Worn g h) : Worn f h := Relation.ReflTransGen.trans h1 h2

theorem one (h : Touched f g) : Worn f g := Relation.ReflTransGen.single h

theorem segment (h : Worn f g) : g.segment = f.segment := by
  induction h with
  | refl => rfl
  | tail _ hone ih => exact hone.segment.trans ih

/-- The folders inside keep their names and labels. -/
theorem labels (h : Worn f g) : labels g.children = labels f.children := by
  induction h with
  | refl => rfl
  | tail _ hone ih => exact hone.labels.trans ih

/-- Nothing but chapters goes from the list of a folder. -/
theorem items (h : Worn f g) : Thinned f.info.items g.info.items := by
  induction h with
  | refl => exact .refl _
  | tail _ hone ih => exact ih.trans hone.items

end Worn

/-! ## The folders inside -/

/-- What is done to a folder is done to the folders in it. -/
theorem Lost.find?_worn {id : String} {way v : List String} {f g a : Folder} (h : Lost id way f g)
    (ha : f.find? v = some a) : ∃ b, g.find? v = some b ∧ Worn a b := by
  induction h generalizing v with
  | @here info children hid =>
    cases v with
    | nil =>
      cases ha
      exact ⟨_, rfl, .one (.lost (.here hid))⟩
    | cons segment v => exact ⟨a, ha, .refl a⟩
  | @inside info before after c d way hb hl ih =>
    cases v with
    | nil =>
      cases ha
      exact ⟨_, rfl, .one (.lost (.inside hb hl))⟩
    | cons segment v =>
      obtain ⟨x, hx, hfind⟩ := Option.bind_eq_some_iff.mp ha
      by_cases hs : segment = c.segment
      · subst hs
        rw [child?_append hb] at hx
        cases hx
        obtain ⟨b, hbfind, hworn⟩ := ih hfind
        refine ⟨b, ?_, hworn⟩
        rw [find?, child?_replaced hb hl.segment_eq]
        exact hbfind
      · refine ⟨a, ?_, .refl a⟩
        rw [find?, child?_replace hl.segment_eq hs, hx]
        exact hfind

theorem Worn.find?_worn {f g a : Folder} {v : List String} (h : Worn f g) (ha : f.find? v = some a) :
    ∃ b, g.find? v = some b ∧ Worn a b := by
  induction h with
  | refl => exact ⟨a, ha, .refl a⟩
  | tail _ hone ih =>
    obtain ⟨b, hb, hworn⟩ := ih
    cases hone with
    | lost hl =>
      obtain ⟨c, hc, hlater⟩ := hl.find?_worn hb
      exact ⟨c, hc, hworn.trans hlater⟩
    | label f l =>
      cases v with
      | nil =>
        cases hb
        exact ⟨_, rfl, hworn.trans (.one (.label _ l))⟩
      | cons segment v => exact ⟨b, hb, hworn⟩

/-- Where folders are worn, a name leads to what became of the folder that it led to. -/
theorem find?_of_worn {cs ds : List Folder} (h : List.Forall₂ Worn cs ds) {segment : String}
    {c : Folder} (hc : cs.find? (·.segment == segment) = some c) :
    ∃ d, ds.find? (·.segment == segment) = some d ∧ Worn c d := by
  induction h with
  | nil => cases hc
  | @cons a b cs ds hab _ ih =>
    rw [List.find?_cons] at hc ⊢
    rw [hab.segment]
    cases hs : a.segment == segment with
    | true =>
      rw [hs] at hc
      cases hc
      exact ⟨b, rfl, hab⟩
    | false =>
      rw [hs] at hc
      exact ih hc

end Folder

namespace Arrange

open Folder (Worn)

theorem lasting_worn (cs : List Folder) : Lasting (List.Forall₂ Worn cs) where
  relabel {children} segment label h := by
    unfold relabel
    rw [List.forall₂_map_right_iff]
    refine h.imp fun c d hcd => ?_
    split
    · exact hcd.trans (.one (.label d label))
    · exact hcd
  lost hl h := by
    cases hl with
    | here _ => exact h
    | inside _ hl =>
      exact forall₂_trans (R := Worn) (fun _ _ _ => Worn.trans) h
        (forall₂_one (R := Worn) Worn.refl (.one (.lost hl)) _ _)

variable {disk : Disk} {metaName : String} {way : List String} {w : Work}

/-- Among the folders inside, after their turns, a name leads to what became of its folder. -/
theorem arrangeAll_find? {c : Folder} {front back : List Folder}
    (hfront : ∀ x ∈ front, x.segment ≠ c.segment) :
    (arrangeAll disk metaName way w (front ++ c :: back)).2.find? (·.segment == c.segment) =
      some (arrange disk metaName (way ++ [c.segment]) (arrangeAll disk metaName way w front).1 c).2 := by
  have hsegment : ∀ v w', (arrange disk metaName v w' c).2.segment = c.segment :=
    fun _ _ => arrange_segment c
  have hbefore : ∀ x ∈ (arrangeAll disk metaName way w front).2, x.segment ≠ c.segment := by
    intro x hx
    have hsegments : (arrangeAll disk metaName way w front).2.map Folder.segment =
        front.map Folder.segment := arrangeAll_segments front
    have hmem : x.segment ∈ front.map Folder.segment := hsegments ▸ List.mem_map_of_mem hx
    obtain ⟨y, hy, hs⟩ := List.mem_map.mp hmem
    exact hs ▸ hfront y hy
  simp only [arrangeAll_append, arrangeAll_cons]
  rw [List.find?_append, List.find?_eq_none.mpr (by simpa using hbefore), Option.none_or]
  simp [hsegment]

/-- A folder inside has its turn behind those in front of it, and the folder around wears it when
that one has its turn. -/
theorem arrange_child {info : FolderInfo} {c : Folder} {front back : List Folder}
    (hfront : ∀ x ∈ front, x.segment ≠ c.segment)
    (hs : (arrange disk metaName way w (.mk info (front ++ c :: back))).1.stop = none) :
    let one := arrange disk metaName (way ++ [c.segment]) (arrangeAll disk metaName way w front).1 c
    one.1.stop = none ∧ ∃ d, (arrange disk metaName way w
      (.mk info (front ++ c :: back))).2.child? c.segment = some d ∧ Worn one.2 d := by
  obtain ⟨hsall, file, -, harranged⟩ := arrange_step hs
  have hchildren : List.Forall₂ Worn (arrangeAll disk metaName way w (front ++ c :: back)).2
      (arrange disk metaName way w (.mk info (front ++ c :: back))).2.children := by
    rw [harranged]
    exact arrangeBy_inside_folders file (lasting_worn _)
      (List.forall₂_same.mpr fun b _ => Worn.refl b)
  rw [arrangeAll_append] at hsall
  exact ⟨(arrangeAll_step hsall).1, Folder.find?_of_worn hchildren (arrangeAll_find? hfront)⟩

/-- A folder in an arranged tree is what became of it after its own turn. No folder that had its
turn before it changed a chapter that stands in it. -/
theorem arrange_find? (way : List String) {f g : Folder} {v : List String} (ht : f.Tidy) (hg : f.find? v = some g)
    (hs : (arrange disk metaName way w f).1.stop = none) :
    ∃ w' h, (arrange disk metaName (way ++ v) w' g).1.stop = none ∧
      (∀ id r, f.homes id = [v ++ r] → w'.chapter? id = w.chapter? id) ∧
      (arrange disk metaName way w f).2.find? v = some h ∧
      Worn (arrange disk metaName (way ++ v) w' g).2 h := by
  induction v generalizing f way w with
  | nil =>
    cases hg
    refine ⟨w, _, ?_, fun _ _ _ => rfl, rfl, ?_⟩
    · rw [List.append_nil]
      exact hs
    · rw [List.append_nil]
      exact .refl _
  | cons segment v ih =>
    obtain ⟨info, children⟩ := f
    obtain ⟨c, front, back, rfl, rfl, hfront, hfind⟩ := Folder.split_of_find? hg
    obtain ⟨hone, d, hd, hcd⟩ := arrange_child hfront hs
    obtain ⟨w', h, hstop, hsame, hh, hworn⟩ := ih _ (ht.child (by simp)) hfind hone
    rw [List.append_assoc, List.singleton_append] at hstop hworn
    obtain ⟨e, he, hhe⟩ := hcd.find?_worn hh
    refine ⟨w', e, hstop, fun id r hhomes => ?_, ?_, hworn.trans hhe⟩
    · have hinside : Folder.homesOf id (front ++ c :: back) = [c.segment :: (v ++ r)] :=
        (Folder.sites_eq_inside.mp hhomes).2
      have hhome : v ++ r ∈ c.homes id := by
        refine (Folder.mem_sites_child ht (by simp)).mp ?_
        rw [show Folder.sites _ _ = _ from hhomes]
        exact List.mem_singleton_self _
      obtain ⟨hnone, r', hr, hsites⟩ :=
        Folder.sitesOf_split_eq_single (List.ne_nil_of_mem hhome) hinside
      rw [hsame id r (hsites.trans (by rw [(List.cons.inj hr).2]))]
      exact (arrangeAll_nowhere (fun b _ v w => arrange_nowhere) hnone (arrange_running hone)).2.2
    · rw [Folder.find?, hd]
      exact he

end Arrange

end Sourcebook
