-- The labels that folders are shown with. A folder has its name for a label, until the override
-- file of the folder around it gives it another one.
import Mathlib
import Sourcebook.Proofs.Contents.Keyed
import Sourcebook.Proofs.Contents.Later

namespace Sourcebook

open Folder (Lost labels)

namespace Override

/-- A label after entries: what they say about the name gives another one. -/
def relabel (entries : List (String × Override)) (name label : String) : String :=
  ((about entries name).map (·.retitle label)).getD label

theorem retitle_retitle (o : Override) (title : String) :
    o.retitle (o.retitle title) = o.retitle title := by
  unfold retitle
  cases o.title with
  | none => rfl
  | some t => cases h : t.isEmpty <;> simp [h]

theorem relabel_nil (name label : String) : relabel [] name label = label := rfl

theorem relabel_cons {key : String} {o : Override} {entries : List (String × Override)}
    (h : key ∉ entries.map (·.1)) (name label : String) :
    relabel ((key, o) :: entries) name label =
      relabel entries name (if key = name ∧ applies key o = true then o.retitle label else label) := by
  unfold relabel
  rw [about_cons]
  by_cases hkey : key = name ∧ applies key o = true
  · have hnone : about entries key = none :=
      about_eq_none.mpr fun p hp => absurd (List.mem_map_of_mem hp) h
    rw [if_pos hkey, if_pos hkey, ← hkey.1, hnone]
    rfl
  · rw [if_neg hkey, if_neg hkey]

end Override

namespace Arrange

variable {path metaName : String} {held : List (String × Item)} {d : Draft}
  {entries : List (String × Override)}

/-! ## Keys -/

theorem labels_relabel (segment label : String) (cs : List Folder) :
    labels (relabel segment label cs) =
      (labels cs).map fun x => (x.1, if x.1 = segment then label else x.2) := by
  unfold labels relabel
  rw [List.map_map, List.map_map]
  refine List.map_congr_left fun c _ => ?_
  simp only [Function.comp_apply]
  split <;> rfl

theorem Draft.labels_place (d : Draft) (o : Override) (item : Item) :
    labels (d.place o item).children = (labels d.children).map fun x =>
      (x.1, if item == .folder x.1 then o.retitle x.2 else x.2) := by
  have hsame : (∀ t, o.retitle t = t) → ∀ l : List (String × String),
      (l.map fun x => (x.1, if item == .folder x.1 then o.retitle x.2 else x.2)) = l := by
    intro ho l
    simp [ho]
  have hlisted : ∀ e : Draft × Item, labels (if o.hidden then e.1 else
      { e.1 with configured := e.1.configured ++ [e.2] }).children = labels e.1.children := by
    intro e
    split <;> rfl
  unfold Draft.place
  cases ht : o.title with
  | none =>
    rw [hsame fun t => by simp [Override.retitle, ht]]
    exact hlisted (d, item)
  | some title =>
    dsimp only
    cases he : title.isEmpty with
    | true =>
      rw [hsame fun t => by simp [Override.retitle, ht, he]]
      exact hlisted (d, item)
    | false =>
      have hretitle : ∀ t, o.retitle t = title := fun t => by simp [Override.retitle, ht, he]
      refine (hlisted (d.rename title item)).trans ?_
      cases item with
      | folder segment =>
        rw [Draft.rename, labels_relabel]
        simp only [hretitle, beq_iff_eq, Item.folder.injEq, eq_comm (a := segment)]
      | chapter id => simp [Draft.rename]
      | page p => simp [Draft.rename]
      | separator t => simp [Draft.rename]

theorem Draft.labels_places (o : Override) (items : List Item) (d : Draft) :
    labels (items.foldl (fun d item => d.place o item) d).children = (labels d.children).map fun x =>
      (x.1, if items.contains (.folder x.1) then o.retitle x.2 else x.2) := by
  induction items generalizing d with
  | nil => simp
  | cons item items ih =>
    rw [List.foldl_cons, ih, labels_place, List.map_map]
    refine List.map_congr_left fun x _ => congrArg (Prod.mk x.1) ?_
    simp only [List.contains_cons, BEq.comm (a := item)]
    cases (Item.folder x.1 == item) <;> cases items.contains (.folder x.1) <;>
      simp [Override.retitle_retitle]

/-- What is held as a folder has the name of the folder. -/
def FoldersNamed (held : List (String × Item)) : Prop :=
  ∀ name segment, (name, .folder segment) ∈ held → name = segment

theorem available_foldersNamed (info : FolderInfo) (children : List Folder) :
    FoldersNamed (available info children) := by
  intro name segment h
  rcases mem_available.mp h with ⟨c, -, -, h⟩ | ⟨id, -, h⟩ | ⟨p, -, h⟩ <;> cases h
  rfl

/-- The label of a folder after keys that name what is held. -/
def labelBy (held : List (String × Item)) (entries : List (String × Override))
    (name label : String) : String :=
  if held.contains (name, .folder name) then Override.relabel entries name label else label

theorem Draft.labels_key (hf : FoldersNamed held) (key : String) (o : Override) :
    labels (d.key path metaName held key o).children = (labels d.children).map fun x =>
      (x.1, labelBy held [(key, o)] x.1 x.2) := by
  -- A key that does not apply, or that names nothing that is held, changes no label.
  have hsame : (Override.applies key o = true → key ∉ held.map (·.1)) →
      ((labels d.children).map fun x => (x.1, labelBy held [(key, o)] x.1 x.2)) =
        labels d.children := by
    intro h
    have hlabel : ∀ x : String × String, labelBy held [(key, o)] x.1 x.2 = x.2 := by
      intro x
      unfold labelBy
      by_cases hkey : key = x.1 ∧ Override.applies key o = true
      · obtain ⟨rfl, ha⟩ := hkey
        refine if_neg fun hmem => h ha ?_
        exact List.mem_map_of_mem (List.contains_iff_mem.mp hmem)
      · rw [Override.relabel_cons List.not_mem_nil, if_neg hkey, Override.relabel_nil, ite_self]
    simp [hlabel]
  have hturn := d.key_turn path metaName held key o
  generalize d.key path metaName held key o = e at hturn
  cases hturn with
  | rest ha => exact (hsame fun h => absurd h (by simp [ha])).symm
  | separator ha => exact (hsame fun h => absurd h (by simp [ha])).symm
  | named ha hk =>
    refine (Draft.labels_places o _ _).trans (List.map_congr_left fun x _ => ?_)
    have hcontains : (named held key).contains (.folder x.1) =
        (key == x.1 && held.contains (x.1, .folder x.1)) := by
      rw [Bool.eq_iff_iff, List.contains_iff_mem, mem_named, Bool.and_eq_true, beq_iff_eq,
        List.contains_iff_mem]
      constructor
      · intro h
        obtain rfl := hf _ _ h
        exact ⟨rfl, h⟩
      · rintro ⟨rfl, h⟩
        exact h
    unfold labelBy
    rw [hcontains, Override.relabel_cons List.not_mem_nil, Override.relabel_nil]
    by_cases hkey : key = x.1
    · simp [hkey, hkey ▸ ha]
    · simp [hkey]
  | missed _ _ hk _ => exact (hsame fun _ => hk).symm
  | hoisted _ hk _ hl =>
    rw [hsame fun _ => hk, Draft.labels_place]
    have hlost : labels _ = labels d.children := (Folder.Touched.lost hl).labels
    simp only [beq_iff_eq, reduceCtorEq, if_false, Prod.mk.eta, List.map_id']
    exact hlost
  | unknown _ _ hk _ _ => exact (hsame fun _ => hk).symm

/-- The run: every folder inside has the label that the keys give it. -/
theorem Draft.labels_keys (hf : FoldersNamed held) (hn : (entries.map (·.1)).Nodup) :
    labels (d.keys path metaName held entries).children = (labels d.children).map fun x =>
      (x.1, labelBy held entries x.1 x.2) := by
  induction entries generalizing d with
  | nil => simp [Draft.keys, labelBy, Override.relabel_nil]
  | cons e entries ih =>
    rw [List.map_cons, List.nodup_cons] at hn
    rw [Draft.keys_cons, ih hn.2, labels_key hf, List.map_map]
    refine List.map_congr_left fun x _ => congrArg (Prod.mk x.1) ?_
    unfold labelBy
    dsimp only
    cases held.contains (x.1, .folder x.1) with
    | true =>
      simp only [if_true]
      rw [Override.relabel_cons hn.1, Override.relabel_cons List.not_mem_nil, Override.relabel_nil]
    | false => rfl

/-! ## The folder itself -/

theorem Draft.label_place (d : Draft) (o : Override) (item : Item) :
    (d.place o item).info.label = d.info.label := by
  obtain ⟨e, he, hplace⟩ := d.place_cases o item
  have hlabel : e.1.info.label = d.info.label := by
    rcases he with rfl | ⟨title, rfl⟩
    · rfl
    · cases item <;> rfl
  rw [hplace]
  split <;> exact hlabel

theorem Draft.label_places (o : Override) (items : List Item) (d : Draft) :
    (items.foldl (fun d item => d.place o item) d).info.label = d.info.label := by
  induction items generalizing d with
  | nil => rfl
  | cons item items ih => rw [List.foldl_cons, ih, Draft.label_place]

theorem Draft.label_key (key : String) (o : Override) :
    (d.key path metaName held key o).info.label = d.info.label := by
  have hturn := d.key_turn path metaName held key o
  generalize d.key path metaName held key o = e at hturn
  cases hturn with
  | rest _ => rfl
  | separator _ => rfl
  | named _ _ => exact Draft.label_places _ _ _
  | missed _ _ _ _ => rfl
  | hoisted _ _ _ _ => exact Draft.label_place _ _ _
  | unknown _ _ _ _ _ => rfl

theorem Draft.label_keys (entries : List (String × Override)) (d : Draft) :
    (d.keys path metaName held entries).info.label = d.info.label := by
  induction entries generalizing d with
  | nil => rfl
  | cons e entries ih => rw [Draft.keys_cons, ih, Draft.label_key]

/-! ## The pass -/

variable {disk : Disk} {way : List String} {w : Work} {info : FolderInfo} {children : List Folder}

theorem arrangeBy_label (file : OverrideFile) :
    (arrangeBy file metaName way w info children).2.info.label = info.label :=
  Draft.label_keys file.entries _

theorem arrange_label (f : Folder) : (arrange disk metaName way w f).2.info.label = f.info.label := by
  obtain ⟨info, children⟩ := f
  rw [arrange_mk]
  unfold arrangeHere
  split
  · rfl
  · rfl
  · exact arrangeBy_label _

theorem arrangeAll_labels (cs : List Folder) :
    labels (arrangeAll disk metaName way w cs).2 = labels cs := by
  induction cs generalizing w with
  | nil => simp [arrangeAll]
  | cons c cs ih =>
    rw [arrangeAll_cons]
    exact congrArg₂ List.cons (congrArg₂ Prod.mk (arrange_segment c) (arrange_label c)) ih

/-- After the turn of a folder, the folders inside have the labels that its keys give them. -/
theorem arrangeBy_labels {file : OverrideFile} (hn : (file.entries.map (·.1)).Nodup) :
    labels (arrangeBy file metaName way w info children).2.children = (labels children).map fun x =>
      (x.1, labelBy (available info children) file.entries x.1 x.2) :=
  Draft.labels_keys (available_foldersNamed info children) hn

end Arrange

end Sourcebook
