-- Taking a chapter out of a folder further down: what changes, and what does not.
import Sourcebook.Proofs.Contents.Sites
import Sourcebook.Proofs.Data.Paired

namespace Sourcebook

/-- A folder without one of its chapters. -/
def FolderInfo.without (i : FolderInfo) (id : String) : FolderInfo :=
  { i with chapters := i.chapters.erase id, items := i.items.filter (· != .chapter id) }

namespace Folder

/-- One folder is another one without a chapter that stood at the end of a way down. -/
inductive Lost (id : String) : List String → Folder → Folder → Prop
  | here {info : FolderInfo} {children : List Folder} : id ∈ info.chapters →
      Lost id [] (.mk info children) (.mk (info.without id) children)
  | inside {info : FolderInfo} {before after : List Folder} {c d : Folder} {way : List String} :
      (∀ x ∈ before, x.segment ≠ c.segment) → Lost id way c d →
      Lost id (c.segment :: way) (.mk info (before ++ c :: after)) (.mk info (before ++ d :: after))

theorem putChild_append {c d : Folder} {before after : List Folder} (hs : d.segment = c.segment)
    (hb : ∀ x ∈ before, x.segment ≠ c.segment) :
    putChild d (before ++ c :: after) = before ++ d :: after := by
  induction before with
  | nil => simp [putChild, hs]
  | cons x xs ih =>
    have hx : x.segment ≠ d.segment := hs ▸ hb x List.mem_cons_self
    simp only [List.cons_append, putChild, hx, if_false]
    rw [ih fun y hy => hb y (List.mem_cons_of_mem _ hy)]

/-- The folder of a name stands behind folders with other names. -/
theorem child?_split {f c : Folder} {segment : String} (h : f.child? segment = some c) :
    c.segment = segment ∧ ∃ before after, f.children = before ++ c :: after ∧
      ∀ x ∈ before, x.segment ≠ segment := by
  unfold child? at h
  obtain ⟨hc, before, after, he, hb⟩ := List.find?_eq_some_iff_append.mp h
  exact ⟨by simpa using hc, before, after, he, fun x hx => by simpa using hb x hx⟩

/-- A way that leads to a folder goes through the first of the folders inside that has the name. -/
theorem split_of_find? {info : FolderInfo} {children : List Folder} {g : Folder} {segment : String}
    {rest : List String} (h : (Folder.mk info children).find? (segment :: rest) = some g) :
    ∃ c before after, children = before ++ c :: after ∧ c.segment = segment ∧
      (∀ x ∈ before, x.segment ≠ segment) ∧ c.find? rest = some g := by
  obtain ⟨c, hc, hg⟩ := Option.bind_eq_some_iff.mp h
  obtain ⟨hs, before, after, he, hb⟩ := child?_split hc
  exact ⟨c, before, after, he, hs, hb, hg⟩

theorem child?_append {info : FolderInfo} {c : Folder} {before after : List Folder}
    (hb : ∀ x ∈ before, x.segment ≠ c.segment) :
    (Folder.mk info (before ++ c :: after)).child? c.segment = some c := by
  unfold child?
  rw [children_mk, List.find?_append, List.find?_eq_none.mpr (by simpa using hb)]
  simp

/-- A folder in the place of one that has its name is what the name leads to. -/
theorem child?_replaced {info : FolderInfo} {c d : Folder} {before after : List Folder}
    (hb : ∀ x ∈ before, x.segment ≠ c.segment) (hd : d.segment = c.segment) :
    (Folder.mk info (before ++ d :: after)).child? c.segment = some d := by
  rw [← hd]
  exact child?_append (by rwa [hd])

/-- Another folder in the place of one that has its name does not show under other names. -/
theorem child?_replace {info : FolderInfo} {c d : Folder} {before after : List Folder}
    (hd : d.segment = c.segment) {segment : String} (hs : segment ≠ c.segment) :
    (Folder.mk info (before ++ d :: after)).child? segment =
      (Folder.mk info (before ++ c :: after)).child? segment := by
  simp only [child?, children_mk, List.find?_append, List.find?_cons, hd,
    beq_eq_false_iff_ne.mpr (Ne.symm hs)]

namespace Lost

variable {id : String} {way : List String} {f g : Folder}

theorem segment_eq (h : Lost id way f g) : g.segment = f.segment := by
  cases h with
  | here _ => rfl
  | inside _ _ => rfl

/-- Only the list of chapters and the items of the folder at the end change. -/
theorem info_eq (h : Lost id way f g) (hw : way ≠ []) : g.info = f.info := by
  cases h with
  | here _ => exact absurd rfl hw
  | inside _ _ => rfl

end Lost

/-- Taking a chapter out succeeds exactly where the chapter stands. -/
theorem detach_eq_some {id : String} {way : List String} {f g : Folder} :
    Arrange.detach id way f = some g ↔ Lost id way f g := by
  induction way generalizing f g with
  | nil =>
    obtain ⟨info, children⟩ := f
    simp only [Arrange.detach, info_mk, List.contains_iff_mem]
    constructor
    · intro h
      split at h
      · cases h
        exact .here ‹_›
      · cases h
    · rintro (⟨h⟩ | _)
      simp [h, withInfo, FolderInfo.without]
  | cons segment way ih =>
    obtain ⟨info, children⟩ := f
    simp only [Arrange.detach, Option.bind_eq_bind, Option.bind_eq_some_iff]
    constructor
    · rintro ⟨c, hc, d, hd, h⟩
      cases h
      have hl := ih.mp hd
      obtain ⟨rfl, before, after, he, hb⟩ := child?_split hc
      simp only [children_mk] at he
      subst he
      simp only [info_mk, children_mk]
      rw [putChild_append hl.segment_eq hb]
      exact .inside hb hl
    · rintro (_ | ⟨hb, hl⟩)
      refine ⟨_, child?_append hb, _, ih.mpr hl, ?_⟩
      simp [putChild_append hl.segment_eq hb]

/-- A chapter can be taken out wherever it stands. -/
theorem exists_lost {id : String} {way : List String} {f : Folder} (hf : f.Tidy)
    (h : way ∈ f.homes id) : ∃ g, Lost id way f g := by
  unfold homes at h
  induction f generalizing way with
  | mk info children ih =>
    rw [sites_mk, List.mem_append, mem_sitesOf] at h
    rcases h with h | ⟨c, hc, rest, hrest, rfl⟩
    · obtain ⟨hne, rfl⟩ := List.mem_replicate.mp h
      exact ⟨_, .here (List.count_pos_iff.mp (Nat.pos_of_ne_zero hne))⟩
    · obtain ⟨d, hl⟩ := ih c hc (hf.child hc) hrest
      obtain ⟨-, before, after, rfl, hb⟩ := child?_split (find?_segment hf.nodup hc)
      exact ⟨_, .inside hb hl⟩

/-! ## Empty folders -/

theorem allEmpty_iff {cs : List Folder} : allEmpty cs = true ↔ ∀ c ∈ cs, c.isEmpty = true := by
  induction cs with
  | nil => simp [allEmpty]
  | cons c cs ih => simp [allEmpty, ih]

theorem isEmpty_mk {info : FolderInfo} {children : List Folder} :
    (Folder.mk info children).isEmpty = true ↔
      info.chapters = [] ∧ info.pages = [] ∧ ∀ c ∈ children, c.isEmpty = true := by
  simp [isEmpty, allEmpty_iff, and_assoc]

/-- In an empty folder nothing stands that counts only where there is a chapter or a page. -/
theorem sites_of_isEmpty {n : FolderInfo → Nat} {f : Folder}
    (hn : ∀ i : FolderInfo, i.chapters = [] → i.pages = [] → n i = 0) (hf : f.isEmpty = true) :
    f.sites n = [] := by
  induction f with
  | mk info children ih =>
    obtain ⟨h1, h2, h3⟩ := isEmpty_mk.mp hf
    rw [sites_eq_nil]
    exact ⟨hn info h1 h2, sitesOf_eq_nil.mpr fun c hc => ih c hc (h3 c hc)⟩

theorem homes_of_isEmpty {f : Folder} (id : String) (hf : f.isEmpty = true) : f.homes id = [] :=
  sites_of_isEmpty (fun i h _ => by simp [h]) hf

/-- A folder that loses a chapter was not empty. -/
theorem Lost.not_isEmpty {id : String} {way : List String} {f g : Folder} (h : Lost id way f g) :
    f.isEmpty = false := by
  induction h with
  | here hid =>
    rw [Bool.eq_false_iff, ne_eq, isEmpty_mk]
    rintro ⟨hnil, -⟩
    rw [hnil] at hid
    cases hid
  | inside _ _ ih =>
    rw [Bool.eq_false_iff, ne_eq, isEmpty_mk]
    rintro ⟨-, -, hall⟩
    rw [hall _ (by simp)] at ih
    cases ih

/-! ## What stays -/

/-- A folder that became another one: it keeps its name, and when it was empty it still is. -/
def Fades (f g : Folder) : Prop := g.segment = f.segment ∧ (f.isEmpty = true → g.isEmpty = true)

/-- A property of folders that stays when a folder loses a chapter, when folders inside fade,
and when a folder gets another label. -/
structure Steady (P : Folder → Prop) : Prop where
  without : ∀ {info children} id, P (.mk info children) → P (.mk (info.without id) children)
  inside : ∀ {info children faded}, List.Forall₂ Fades children faded →
    P (.mk info children) → P (.mk info faded)
  label : ∀ {info children} l, P (.mk info children) → P (.mk { info with label := l } children)

theorem Fades.refl (f : Folder) : Fades f f := ⟨rfl, fun h => h⟩

theorem Fades.trans {f g h : Folder} (h1 : Fades f g) (h2 : Fades g h) : Fades f h :=
  ⟨h2.1.trans h1.1, fun he => h2.2 (h1.2 he)⟩

theorem fades_same (cs : List Folder) : List.Forall₂ Fades cs cs :=
  List.forall₂_same.mpr fun c _ => .refl c

theorem fades_trans {bs cs ds : List Folder} (h1 : List.Forall₂ Fades bs cs)
    (h2 : List.Forall₂ Fades cs ds) : List.Forall₂ Fades bs ds :=
  forall₂_trans (R := Fades) (fun _ _ _ => Fades.trans) h1 h2

theorem fades_one {c d : Folder} (h : Fades c d) (before after : List Folder) :
    List.Forall₂ Fades (before ++ c :: after) (before ++ d :: after) :=
  forall₂_one (R := Fades) Fades.refl h before after

theorem fades_segments {cs ds : List Folder} (h : List.Forall₂ Fades cs ds) :
    ds.map segment = cs.map segment := by
  induction h with
  | nil => rfl
  | cons h _ ih => rw [List.map_cons, List.map_cons, h.1, ih]

theorem steady_neat : Steady Neat where
  without _ h := h
  inside hf h := h.of_segments (fades_segments hf)
  label _ h := h

namespace Lost

variable {id : String} {way : List String} {f g : Folder}

theorem fades (h : Lost id way f g) : Fades f g :=
  ⟨h.segment_eq, fun he => by rw [h.not_isEmpty] at he; cases he⟩

/-- The folders inside fade when one of them loses a chapter. -/
theorem fades_inside (h : Lost id way f g) : List.Forall₂ Fades f.children g.children := by
  cases h with
  | here _ => exact fades_same _
  | inside _ hl => exact fades_one hl.fades _ _

theorem every {P : Folder → Prop} (hP : Steady P) (h : Lost id way f g) (hf : Every P f) :
    Every P g := by
  induction h with
  | here _ => exact .mk (hP.without _ hf.here) fun c hc => hf.child (f := .mk _ _) hc
  | @inside info before after c d way hb hl ih =>
    refine .mk (hP.inside (fades_one hl.fades before after) hf.here) fun x hx => ?_
    rcases List.mem_append.mp hx with hx | hx
    · exact hf.child (by simp [hx])
    · rcases List.mem_cons.mp hx with rfl | hx
      · exact ih (hf.child (by simp))
      · exact hf.child (by simp [hx])

theorem tidy (h : Lost id way f g) (hf : f.Tidy) : g.Tidy := h.every steady_neat hf

/-- What does not count the chapter stands where it stood. -/
theorem sites_eq {n : FolderInfo → Nat} (h : Lost id way f g)
    (hn : ∀ i, n (i.without id) = n i) : g.sites n = f.sites n := by
  induction h with
  | here _ => simp [sites_mk, hn]
  | inside hb hl ih => simp [sites_mk, sitesOf_append, sitesOf, ih, hl.segment_eq]

/-- Where a chapter is taken out it stood, and it stands there once less. -/
theorem homes_perm (h : Lost id way f g) : (f.homes id).Perm (way :: g.homes id) := by
  unfold homes
  induction h with
  | @here info children hid =>
    have hc : info.chapters.count id = (info.without id).chapters.count id + 1 := by
      have := List.count_pos_iff.mpr hid
      simp only [FolderInfo.without, List.count_erase_self]
      omega
    simp [sites_mk, hc, List.replicate_succ]
  | @inside info before after c d way hb hl ih =>
    rw [← hl.segment_eq]
    exact sites_inside_perm hl.segment_eq.symm ih

theorem homes_other {id' : String} (h : Lost id way f g) (hne : id' ≠ id) :
    g.homes id' = f.homes id' :=
  h.sites_eq fun i => by simp [FolderInfo.without, List.count_erase_of_ne hne]

theorem listings_other {id' : String} (h : Lost id way f g) (hne : id' ≠ id) :
    g.listings id' = f.listings id' := by
  refine h.sites_eq fun i => ?_
  simp only [FolderInfo.without]
  rw [List.count_filter]
  simpa using hne

/-- The folder at the top may be another one. -/
theorem change_top (h : Lost id way f g) (hw : way ≠ []) (i : FolderInfo) :
    Lost id way (.mk i f.children) (.mk i g.children) := by
  cases h with
  | here _ => exact absurd rfl hw
  | inside hb hl => exact .inside hb hl

/-- The folder that loses a chapter does not list it any more. -/
theorem not_listed (h : Lost id way f g) (hg : g.Tidy) : way ∉ g.listings id := by
  unfold listings
  induction h with
  | @here info children _ =>
    rw [sites_mk, List.mem_append, not_or]
    have hzero : (info.without id).items.count (.chapter id) = 0 :=
      List.count_eq_zero.mpr (by simp [FolderInfo.without])
    exact ⟨by simp [hzero], nil_not_mem_sitesOf _ _⟩
  | @inside info before after c d way hb hl ih =>
    rw [sites_mk, List.mem_append, not_or]
    refine ⟨by simp, fun hmem => ?_⟩
    obtain ⟨x, hx, rest, hrest, he⟩ := mem_sitesOf.mp hmem
    obtain ⟨hs, rfl⟩ := List.cons.inj he
    have hd : d ∈ before ++ d :: after := by simp
    have hsame : x = d := by
      have h1 := find?_segment hg.nodup hx
      have h2 := find?_segment hg.nodup hd
      rw [← hs, ← hl.segment_eq, h2] at h1
      exact (Option.some.inj h1).symm
    exact ih (hg.child hd) (hsame ▸ hrest)

/-- No folder lists a chapter that it did not list before. -/
theorem listings_sublist (h : Lost id way f g) (other : String) :
    (g.listings other).Sublist (f.listings other) := by
  unfold listings
  induction h with
  | @here info children _ =>
    have hle : (info.without id).items.count (.chapter other) ≤ info.items.count (.chapter other) :=
      List.filter_sublist.count_le _
    simp only [sites_mk]
    exact (List.replicate_sublist_replicate _ |>.mpr hle).append_right _
  | inside hb hl ih =>
    simp only [sites_mk, sitesOf_append, sitesOf, hl.segment_eq]
    exact (((ih.map _).append_right _).append_left _).append_left _

end Lost

/-! ## Other names -/

theorem withInfo_label_sites {n : FolderInfo → Nat} (hn : ∀ i l, n { i with label := l } = n i)
    (f : Folder) (l : String) : (f.withInfo fun i => { i with label := l }).sites n = f.sites n := by
  obtain ⟨info, children⟩ := f
  simp [withInfo, sites_mk, hn]

end Folder

end Sourcebook
