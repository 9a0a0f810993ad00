-- What every folder of a tree holds: the chapters and the pages that were put into it, in the
-- order in which they came.
import Mathlib
import Sourcebook.Proofs.Contents.Additions

namespace Sourcebook

namespace Folder

variable {g : FolderInfo → FolderInfo}

/-! ## Changing one folder, seen from another one -/

theorem child?_append_new {f d : Folder} {segment : String} (hd : d.segment = segment)
    (hnone : f.child? segment = none) (info : FolderInfo) (x : String) :
    (Folder.mk info (f.children ++ [d])).child? x = if x = segment then some d else f.child? x := by
  unfold child? at hnone ⊢
  rw [children_mk, List.find?_append]
  by_cases hx : x = segment
  · subst hx
    rw [hnone, if_pos rfl]
    simp [hd]
  · rw [if_neg hx, List.find?_cons_of_neg (by simpa [hd] using Ne.symm hx), List.find?_nil,
      Option.or_none]

theorem child?_putChild {f c d : Folder} {segment : String} (hd : d.segment = segment)
    (hc : f.child? segment = some c) (info : FolderInfo) (x : String) :
    (Folder.mk info (putChild d f.children)).child? x =
      if x = segment then some d else f.child? x := by
  obtain ⟨rfl, before, after, he, hb⟩ := child?_split hc
  rw [he, putChild_append hd hb]
  by_cases hx : x = c.segment
  · subst hx
    rw [if_pos rfl]
    exact child?_replaced hb hd
  · rw [if_neg hx, child?_replace hd hx, ← he]
    rfl

/-- After a change the folder on the way is the changed one, made if it was missing. Folders
beside it are as they were. -/
theorem child?_change (hg : ∀ i, (g i).segment = i.segment) (segment : String) (way : List String)
    (f : Folder) (x : String) : (change (·.withInfo g) (segment :: way) f).child? x =
      if x = segment then
        some (change (·.withInfo g) way ((f.child? segment).getD (.new segment (f.sourceInside segment))))
      else f.child? x := by
  cases hc : f.child? segment with
  | some c =>
    have hsegment := (change_segment hg way c).trans (child?_eq_some hc).2
    rw [change, hc]
    exact child?_putChild hsegment hc f.info x
  | none =>
    have hsegment := change_segment hg way (.new segment (f.sourceInside segment))
    rw [change, hc]
    exact child?_append_new hsegment hc f.info x

/-- The folder at the end of a way, with new folders where they are missing. -/
def reach : List String → Folder → Folder
  | [], f => f
  | segment :: rest, f => reach rest ((f.child? segment).getD (.new segment (f.sourceInside segment)))

theorem reach_of_find? {v : List String} {f a : Folder} (h : f.find? v = some a) : reach v f = a := by
  induction v generalizing f with
  | nil => exact Option.some.inj h
  | cons segment v ih =>
    obtain ⟨c, hc, hfind⟩ := Option.bind_eq_some_iff.mp h
    rw [reach, hc]
    exact ih hfind

section Counted

variable {α : Type} {n : FolderInfo → α} {x : α}

/-- A new folder has nothing in it, and so have the folders that are made in it. -/
theorem reach_new (hn : ∀ s p, n (fresh s p) = x) (v : List String) (segment : String) (p : Path) :
    n (reach v (.new segment p)).info = x := by
  induction v generalizing segment p with
  | nil => exact hn segment p
  | cons s v ih => exact ih s _

/-- A change shows in the folder at the end of its way, and in no other one. -/
theorem reach_change (hg : ∀ i, (g i).segment = i.segment) (hn : ∀ s p, n (fresh s p) = x)
    (way v : List String) (f : Folder) : n (reach v (change (·.withInfo g) way f)).info =
      if v = way then n (g (reach v f).info) else n (reach v f).info := by
  induction way generalizing f v with
  | nil =>
    cases v with
    | nil => rfl
    | cons s v =>
      rw [if_neg (List.cons_ne_nil s v), change, reach, reach]
      cases hc : f.child? s with
      | some c =>
        rw [show (f.withInfo g).child? s = some c from hc]
        rfl
      | none =>
        rw [show (f.withInfo g).child? s = none from hc]
        exact (reach_new hn v _ _).trans (reach_new hn v _ _).symm
  | cons segment way ih =>
    cases v with
    | nil =>
      rw [if_neg (List.cons_ne_nil segment way).symm, reach, reach, change_info]
    | cons s v =>
      rw [reach, child?_change hg, reach]
      by_cases hs : s = segment
      · subst hs
        rw [if_pos rfl, Option.getD_some, ih]
        simp only [List.cons.injEq, true_and]
      · have hsource : (change (·.withInfo g) (segment :: way) f).sourceInside s = f.sourceInside s := by
          unfold sourceInside
          rw [change_info]
        rw [if_neg hs, if_neg fun he => hs (List.cons.inj he).1, hsource]

end Counted

end Folder

namespace Tree

variable {source : Path} {metaName : String} {additions : List Addition}

namespace Addition

/-- The chapter that is put into the folder at the end of a way. -/
def chapterAt? (v : List String) : Addition → Option Chapter
  | .chapter c path => if segments path = v then some c else none
  | _ => none

def pageAt? (v : List String) : Addition → Option ReferencePage
  | .page p path => if segments path = v then some p else none
  | _ => none

theorem chapterAt?_eq_some {a : Addition} {v : List String} {c : Chapter} :
    a.chapterAt? v = some c ↔ ∃ path, a = .chapter c path ∧ segments path = v := by
  cases a with
  | chapter d path =>
    simp only [chapterAt?, Option.ite_none_right_eq_some, Option.some.injEq]
    constructor
    · rintro ⟨hv, rfl⟩
      exact ⟨path, rfl, hv⟩
    · rintro ⟨_, h, hv⟩
      cases h
      exact ⟨hv, rfl⟩
  | page p path => simp [chapterAt?]
  | mount path dir => simp [chapterAt?]

end Addition

/-- The chapters that were put into the folder at the end of a way. -/
def chaptersAt (additions : List Addition) (v : List String) : List Chapter :=
  additions.filterMap (Addition.chapterAt? v)

def pagesAt (additions : List Addition) (v : List String) : List ReferencePage :=
  additions.filterMap (Addition.pageAt? v)

theorem mem_chaptersAt {v : List String} {c : Chapter} :
    c ∈ chaptersAt additions v ↔ ∃ path, .chapter c path ∈ additions ∧ segments path = v := by
  simp only [chaptersAt, List.mem_filterMap, Addition.chapterAt?_eq_some]
  constructor
  · rintro ⟨_, ha, path, rfl, hv⟩
    exact ⟨path, ha, hv⟩
  · rintro ⟨path, ha, hv⟩
    exact ⟨_, ha, path, rfl, hv⟩

section Reached

variable {α : Type} {n : FolderInfo → α} {x : α}

theorem reach_made_nil (hn : ∀ s p, n (Folder.fresh s p) = x) (v : List String) :
    n ((made source metaName []).root.reach v).info = x :=
  Folder.reach_new hn v "root" source

theorem reach_made_snoc (hn : ∀ s p, n (Folder.fresh s p) = x) (a : Addition) (v : List String) :
    n ((made source metaName (additions ++ [a])).root.reach v).info =
      if v = a.way then n (a.effect ((made source metaName additions).root.reach v).info)
      else n ((made source metaName additions).root.reach v).info := by
  rw [made_snoc, add_root]
  exact Folder.reach_change a.effect_segment hn a.way v _

end Reached

/-- A folder holds the pages that were put into it. -/
theorem reach_pages (v : List String) :
    ((made source metaName additions).root.reach v).info.pages = pagesAt additions v := by
  induction additions using List.reverseRecOn with
  | nil => exact reach_made_nil (n := (·.pages)) (fun _ _ => rfl) v
  | append_singleton as a ih =>
    rw [reach_made_snoc (n := (·.pages)) (fun _ _ => rfl), Addition.effect_pages, ih]
    unfold pagesAt
    rw [List.filterMap_append]
    cases a with
    | page p path =>
      by_cases hv : segments path = v
      · simp [Addition.way, Addition.page?, Addition.pageAt?, hv]
      · simp [Addition.way, Addition.pageAt?, hv, Ne.symm hv]
    | chapter c path => simp [Addition.page?, Addition.pageAt?]
    | mount path dir => simp [Addition.page?, Addition.pageAt?]

/-- A folder holds the chapters that were put into it. -/
theorem reach_chapters (h : (chapterIds additions).Nodup) (v : List String) :
    ((made source metaName additions).root.reach v).info.chapters =
      (chaptersAt additions v).map (·.id) := by
  induction additions using List.reverseRecOn with
  | nil => exact reach_made_nil (n := (·.chapters)) (fun _ _ => rfl) v
  | append_singleton as a ih =>
    obtain ⟨hn, hnew⟩ := nodup_chapterIds_snoc h
    rw [reach_made_snoc (n := (·.chapters)) (fun _ _ => rfl), ih hn]
    unfold chaptersAt
    rw [List.filterMap_append, List.map_append]
    cases a with
    | chapter c path =>
      by_cases hv : segments path = v
      · have hnot : c.id ∉ (chaptersAt as v).map (·.id) := by
          intro hmem
          obtain ⟨d, hd, hid⟩ := List.mem_map.mp hmem
          obtain ⟨path', ha, -⟩ := mem_chaptersAt.mp hd
          refine hnew c rfl (hid ▸ List.mem_map_of_mem ?_)
          exact List.mem_filterMap.mpr ⟨_, ha, rfl⟩
        simp only [Addition.way, hv, if_true, Addition.effect, ih hn]
        rw [if_neg (by simpa using hnot)]
        simp [chaptersAt, Addition.chapterAt?, hv]
      · simp [Addition.way, Addition.chapterAt?, hv, Ne.symm hv]
    | page p path => simp [Addition.effect, Addition.chapterAt?, ih hn, chaptersAt]
    | mount path dir => simp [Addition.effect, Addition.chapterAt?, ih hn, chaptersAt]

/-- What the folder at the end of a way holds before the tree is arranged. -/
theorem held_of_find? (h : (chapterIds additions).Nodup) {v : List String} {f : Folder}
    (hf : (made source metaName additions).root.find? v = some f) :
    f.info.chapters = (chaptersAt additions v).map (·.id) ∧ f.info.pages = pagesAt additions v := by
  have hreach := Folder.reach_of_find? hf
  exact ⟨hreach ▸ reach_chapters h v, hreach ▸ reach_pages v⟩

end Tree

end Sourcebook
