-- Folders that are listed though nothing is left in them. A folder lists no empty folder when it has
-- its turn; only a folder above that takes chapters out of it afterwards can leave one in its list.
-- The table of contents passes over all of them.
import Mathlib
import Sourcebook.Proofs.Contents.Hoisting
import Sourcebook.Proofs.Contents.Keyed
import Sourcebook.Proofs.Contents.Later
import Sourcebook.Proofs.Contents.Mentions

namespace Sourcebook

open Folder (Every Lost Tidy Worn)

namespace Folder

/-- Every folder that is listed is there, and is not empty. -/
def ListsFull (f : Folder) : Prop :=
  ∀ segment, .folder segment ∈ f.info.items → ∃ c, f.child? segment = some c ∧ c.isEmpty = false

/-! ## Folders that are not empty -/

/-- A way leads to a folder that is not empty. -/
def Full (v : List String) (f : Folder) : Prop := ∃ a, f.find? v = some a ∧ a.isEmpty = false

theorem full_cons {segment : String} {v : List String} {f : Folder} :
    Full (segment :: v) f ↔ ∃ c, f.child? segment = some c ∧ Full v c := by
  unfold Full
  simp only [find?, Option.bind_eq_some_iff]
  constructor
  · rintro ⟨a, ⟨c, hc, ha⟩, hne⟩
    exact ⟨c, hc, a, ha, hne⟩
  · rintro ⟨c, hc, a, ha, hne⟩
    exact ⟨a, ⟨c, hc, ha⟩, hne⟩

theorem Full.label {v : List String} {f : Folder} (h : Full v f) (l : String) :
    Full v (f.withInfo fun i => { i with label := l }) := by
  obtain ⟨a, ha, hne⟩ := h
  cases v with
  | nil =>
    cases ha
    obtain ⟨info, children⟩ := f
    exact ⟨_, rfl, hne⟩
  | cons segment v => exact ⟨a, ha, hne⟩

/-- A folder is as full as it was when a chapter is taken out elsewhere. -/
theorem Lost.full {id : String} {way v : List String} {f g : Folder} (h : Lost id way f g)
    (hv : ¬ v <+: way) (hf : Full v f) : Full v g := by
  induction h generalizing v with
  | here _ =>
    cases v with
    | nil => exact absurd (List.prefix_refl _) hv
    | cons segment v => exact hf
  | @inside info before after c d way hb hl ih =>
    cases v with
    | nil => exact absurd (List.nil_prefix) hv
    | cons segment v =>
      obtain ⟨x, hx, hfull⟩ := full_cons.mp hf
      by_cases hs : segment = c.segment
      · subst hs
        rw [child?_append hb] at hx
        cases hx
        have hway : ¬ v <+: way := fun hp => hv (List.cons_prefix_cons.mpr ⟨rfl, hp⟩)
        exact full_cons.mpr ⟨d, child?_replaced hb hl.segment_eq, ih hway hfull⟩
      · exact full_cons.mpr ⟨x, (child?_replace hl.segment_eq hs).trans hx, hfull⟩

end Folder

namespace Arrange

open Folder (Full ListsFull full_cons)

/-! ## The turn of one folder -/

theorem full_relabel {info : FolderInfo} {segment label : String} {cs : List Folder} {s : String}
    {v : List String} (h : Full (s :: v) (.mk info cs)) :
    Full (s :: v) (.mk info (relabel segment label cs)) := by
  obtain ⟨c, hc, hfull⟩ := full_cons.mp h
  have hchild : (Folder.mk info (relabel segment label cs)).child? s = some
      (if c.segment = segment then c.withInfo fun i => { i with label := label } else c) := by
    have hname : ∀ b : Folder,
        (if b.segment = segment then b.withInfo fun i => { i with label := label } else b).segment =
          b.segment := by
      intro b
      split <;> rfl
    unfold Folder.child? at hc ⊢
    rw [Folder.children_mk] at hc ⊢
    rw [relabel, List.find?_map, Function.comp_def]
    simp only [hname, hc, Option.map_some]
  refine full_cons.mpr ⟨_, hchild, ?_⟩
  split
  · exact hfull.label label
  · exact hfull

/-- The folder of a draft, as far as chapters stand in it. -/
def Draft.folder (d : Draft) : Folder := .mk d.info d.children

theorem Draft.folder_homes (d : Draft) (id : String) : d.folder.homes id = (d.sight id).homes :=
  (d.homes_eq id).symm

theorem Draft.folder_homes_place (d : Draft) (o : Override) (item : Item) (id : String) :
    (d.place o item).folder.homes id = d.folder.homes id := by
  rw [folder_homes, folder_homes, homes_place]

theorem Draft.mem_folder_homes_taken {d : Draft} {path id other : String} {v : List String}
    {children : List Folder} : v ∈ (d.taken path id children).folder.homes other ↔
      (v = [] ∧ other = id) ∨ v ∈ (Folder.mk d.info children).homes other := by
  rw [folder_homes, mem_homes_left]

/-- The chapters of one folder stand in the other where they stood, or came up to the folder
itself. -/
structure Lifts (f g : Folder) : Prop where
  comes : ∀ id v, v ∈ g.homes id → v ∈ f.homes id ∨ (v = [] ∧ ∃ u, u ∈ f.homes id)
  stays : ∀ id v, v ∈ f.homes id → v ∈ g.homes id ∨ [] ∈ g.homes id

theorem Lifts.of_homes {f g : Folder} (h : ∀ id, g.homes id = f.homes id) : Lifts f g where
  comes id _ hv := Or.inl (h id ▸ hv)
  stays id _ hv := Or.inl ((h id).symm ▸ hv)

/-- What came up to the folder itself stays there. -/
theorem Lifts.top {f g : Folder} (h : Lifts f g) {id : String} (ht : [] ∈ f.homes id) :
    [] ∈ g.homes id := by
  rcases h.stays id [] ht with hg | hg
  · exact hg
  · exact hg

theorem Lifts.trans {f g h : Folder} (h1 : Lifts f g) (h2 : Lifts g h) : Lifts f h where
  comes id v hv := by
    rcases h2.comes id v hv with hv | ⟨rfl, u, hu⟩
    · exact h1.comes id v hv
    · refine Or.inr ⟨rfl, ?_⟩
      rcases h1.comes id u hu with hu | ⟨-, hsome⟩
      · exact ⟨u, hu⟩
      · exact hsome
  stays id v hv := by
    rcases h1.stays id v hv with hv | htop
    · exact h2.stays id v hv
    · exact Or.inr (h2.top htop)

theorem Draft.lifts_taken {d : Draft} {path id : String} {way : List String}
    {children : List Folder} (hl : Lost id way (.mk d.info d.children) (.mk d.info children)) :
    Lifts d.folder (d.taken path id children).folder where
  comes other v hv := by
    rcases Draft.mem_folder_homes_taken.mp hv with ⟨rfl, rfl⟩ | hkept
    · exact Or.inr ⟨rfl, way, hl.homes_perm.mem_iff.mpr List.mem_cons_self⟩
    · by_cases ho : other = id
      · subst ho
        exact Or.inl (hl.homes_perm.mem_iff.mpr (List.mem_cons_of_mem _ hkept))
      · exact Or.inl (hl.homes_other ho ▸ hkept)
  stays other v hv := by
    by_cases ho : other = id
    · subst ho
      exact Or.inr (Draft.mem_folder_homes_taken.mpr (Or.inl ⟨rfl, rfl⟩))
    · exact Or.inl (Draft.mem_folder_homes_taken.mpr (Or.inr ((hl.homes_other ho).symm ▸ hv)))

theorem Draft.lifts_key (path metaName : String) (held : List (String × Item)) (d : Draft)
    (key : String) (o : Override) : Lifts d.folder (d.key path metaName held key o).folder := by
  have hturn := d.key_turn path metaName held key o
  generalize d.key path metaName held key o = e at hturn
  cases hturn with
  | rest _ => exact .of_homes fun _ => rfl
  | separator _ => exact .of_homes fun _ => rfl
  | named _ _ =>
    refine .of_homes fun id => ?_
    rw [Draft.folder_homes, Draft.homes_places]
    exact (Draft.folder_homes d id).symm
  | missed _ _ _ _ => exact .of_homes fun _ => rfl
  | hoisted _ _ _ hl =>
    exact (Draft.lifts_taken hl).trans (.of_homes (Draft.folder_homes_place _ o _))
  | unknown _ _ _ _ _ => exact .of_homes fun _ => rfl

theorem Draft.lifts_keys (path metaName : String) (held : List (String × Item))
    (entries : List (String × Override)) (d : Draft) :
    Lifts d.folder (d.keys path metaName held entries).folder := by
  induction entries generalizing d with
  | nil => exact .of_homes fun _ => rfl
  | cons e entries ih => exact (d.lifts_key path metaName held e.1 e.2).trans (ih _)

/-- A key leaves a folder further down as full as it was, or takes a chapter out of it. -/
theorem Draft.full_key {d : Draft} (path metaName : String) (held : List (String × Item))
    (key : String) (o : Override) {segment : String} {v : List String}
    (h : Full (segment :: v) d.folder) :
    Full (segment :: v) (d.key path metaName held key o).folder ∨
      Override.applies key o = true ∧ segment :: v <+: (hoistKey key).1 ∧
        (hoistKey key).1 ∈ d.folder.homes (hoistKey key).2 ∧
        [] ∈ (d.key path metaName held key o).folder.homes (hoistKey key).2 := by
  have hturn := d.key_turn path metaName held key o
  generalize d.key path metaName held key o = e at hturn
  cases hturn with
  | rest _ => exact Or.inl h
  | separator _ => exact Or.inl h
  | named _ _ =>
    exact Or.inl (Draft.places_children (Q := fun cs => Full (segment :: v) (.mk d.info cs))
      (fun _ _ => full_relabel) o h)
  | missed _ _ _ _ => exact Or.inl h
  | @hoisted children ha _ _ hl =>
    by_cases hv : segment :: v <+: (hoistKey key).1
    · refine Or.inr ⟨ha, hv, hl.homes_perm.mem_iff.mpr List.mem_cons_self, ?_⟩
      rw [Draft.folder_homes_place]
      exact Draft.mem_folder_homes_taken.mpr (Or.inl ⟨rfl, rfl⟩)
    · have hleft : Full (segment :: v) (.mk d.info children) := hl.full hv h
      exact Or.inl (Draft.place_children (Q := fun cs => Full (segment :: v) (.mk d.info cs))
        (fun _ _ => full_relabel) (d := d.taken path (hoistKey key).2 children) hleft o _)
  | unknown _ _ _ _ _ => exact Or.inl h

theorem Draft.full_keys {d : Draft} {path metaName : String} {held : List (String × Item)}
    {entries : List (String × Override)} {segment : String} {v : List String}
    (h : Full (segment :: v) d.folder) :
    Full (segment :: v) (d.keys path metaName held entries).folder ∨
      ∃ key o id below, (key, o) ∈ entries ∧ Override.applies key o = true ∧
        hoistKey key = (segment :: v ++ below, id) ∧ segment :: v ++ below ∈ d.folder.homes id ∧
        [] ∈ (d.keys path metaName held entries).folder.homes id := by
  induction entries generalizing d with
  | nil => exact Or.inl h
  | cons e entries ih =>
    rcases Draft.full_key path metaName held e.1 e.2 h with
      hfull | ⟨ha, ⟨below, hbelow⟩, hhome, htop⟩
    · rcases ih hfull with hend | ⟨key, o, id, below, hmem, ha, hk, hhome, htop⟩
      · exact Or.inl hend
      · refine Or.inr ⟨key, o, id, below, List.mem_cons_of_mem _ hmem, ha, hk, ?_, htop⟩
        rcases (d.lifts_key path metaName held e.1 e.2).comes id _ hhome with hhome | ⟨hnil, -⟩
        · exact hhome
        · cases hnil
    · exact Or.inr ⟨e.1, e.2, (hoistKey e.1).2, below, List.mem_cons_self, ha, by rw [hbelow],
        hbelow.symm ▸ hhome, (Draft.lifts_keys path metaName held entries _).top htop⟩

variable {disk : Disk} {metaName : String} {way : List String} {w : Work} {info : FolderInfo}
  {children : List Folder}

theorem arrangeBy_homes (file : OverrideFile) (id : String) :
    (arrangeBy file metaName way w info children).2.homes id =
      (Draft.done file metaName (Tree.pathText way) w info children).folder.homes id := by
  rw [arrangeBy_eq]
  simp only [Draft.folder, Folder.homes, Folder.sites_mk]

theorem arrangeBy_lifts (file : OverrideFile) :
    Lifts (.mk info children) (arrangeBy file metaName way w info children).2 :=
  (Draft.lifts_keys _ metaName _ file.entries (Draft.start file _ w info children)).trans
    (.of_homes (arrangeBy_homes file))

/-- A folder further down is as full as it was, or a key takes a chapter out of it. -/
theorem arrangeBy_full (file : OverrideFile) (metaName : String) (way : List String) (w : Work)
    {segment : String} {v : List String} (h : Full (segment :: v) (.mk info children)) :
    Full (segment :: v) (arrangeBy file metaName way w info children).2 ∨
      ∃ key o id below, (key, o) ∈ file.entries ∧ Override.applies key o = true ∧
        hoistKey key = (segment :: v ++ below, id) ∧
        segment :: v ++ below ∈ (Folder.mk info children).homes id ∧
        [] ∈ (arrangeBy file metaName way w info children).2.homes id := by
  simp only [arrangeBy_homes]
  exact Draft.full_keys (d := Draft.start file (Tree.pathText way) w info children) h

/-- When a folder has its turn, it lists no empty folder. -/
theorem arrangeBy_listsFull (file : OverrideFile) :
    (arrangeBy file metaName way w info children).2.ListsFull := by
  intro segment hitem
  rw [arrangeBy_eq] at hitem ⊢
  unfold Folder.child?
  simp only [Folder.info_mk, Folder.children_mk] at hitem ⊢
  unfold Draft.finish isDrained at hitem
  have hdrained := (List.mem_filter.mp hitem).2
  dsimp only at hdrained
  generalize List.find? _ _ = c at hdrained ⊢
  cases c with
  | none => cases hdrained
  | some c => exact ⟨c, rfl, by simpa using hdrained⟩

/-! ## The whole tree -/

theorem arrangeAll_homes {id : String} {v : List String}
    (hone : ∀ c ∈ children, ∀ v w, (arrange disk metaName v w c).1.stop = none →
      ∀ r ∈ (arrange disk metaName v w c).2.homes id, ∃ more, r ++ more ∈ c.homes id)
    (hs : (arrangeAll disk metaName way w children).1.stop = none)
    (hv : v ∈ (Folder.mk info (arrangeAll disk metaName way w children).2).homes id) :
    ∃ more, v ++ more ∈ (Folder.mk info children).homes id := by
  cases v with
  | nil => exact ⟨[], Folder.nil_mem_sites.mpr (Folder.nil_mem_sites.mp hv :)⟩
  | cons segment v =>
    obtain ⟨d, hd, hname, hr⟩ := Folder.cons_mem_sites.mp hv
    have hevery := arrangeAll_every (P := fun d => ∃ c ∈ children, c.segment = d.segment ∧
      ∀ r ∈ d.homes id, ∃ more, r ++ more ∈ c.homes id)
      (fun c hc v w hstop => ⟨c, hc, (arrange_segment c).symm, hone c hc v w hstop⟩) hs
    obtain ⟨c, hc, hsame, hstood⟩ := hevery d hd
    obtain ⟨more, hmore⟩ := hstood v hr
    exact ⟨more, Folder.cons_mem_sites.mpr ⟨c, hc, hsame.trans hname, hmore⟩⟩

/-- Where a chapter stands in an arranged tree it stood before, there or further down. -/
theorem arrange_homes {f : Folder} {id : String} {v : List String}
    (hs : (arrange disk metaName way w f).1.stop = none)
    (hv : v ∈ (arrange disk metaName way w f).2.homes id) : ∃ more, v ++ more ∈ f.homes id := by
  induction f generalizing way w v with
  | mk info children ih =>
    obtain ⟨hsall, file, -, he⟩ := arrange_step hs
    have hstood : ∀ u ∈ (Folder.mk info (arrangeAll disk metaName way w children).2).homes id,
        ∃ more, u ++ more ∈ (Folder.mk info children).homes id :=
      fun u hu => arrangeAll_homes (fun c hc v w hstop r hr => ih c hc hstop hr) hsall hu
    rw [he] at hv
    rcases (arrangeBy_lifts file).comes id v hv with hv | ⟨rfl, u, hu⟩
    · exact hstood v hv
    · obtain ⟨more, hmore⟩ := hstood u hu
      exact ⟨u ++ more, hmore⟩

/-- A folder took a chapter out of a folder below it, or out of one further down: it has a key for
the chapter there, the chapter stood there or below, and in the end it stands in the folder that
took it or in one above. -/
def Drew (rules : Rules) (before after : Folder) (up rest : List String) : Prop :=
  ∃ key o id below more top, (key, o) ∈ rules up ∧ Override.applies key o = true ∧
    hoistKey key = (rest ++ below, id) ∧ up ++ (rest ++ below ++ more) ∈ before.homes id ∧
    top <+: up ∧ top ∈ after.homes id

/-- What a folder inside drew is drawn in the whole tree. -/
theorem Drew.inside {c : Folder} {front back : List Folder} {up rest : List String}
    (hfront : ∀ x ∈ front, x.segment ≠ c.segment) (ht : (Folder.mk info (front ++ c :: back)).Tidy)
    (hs : (arrange disk metaName way w (.mk info (front ++ c :: back))).1.stop = none)
    (h : Drew (rules disk metaName c) c (arrange disk metaName (way ++ [c.segment])
      (arrangeAll disk metaName way w front).1 c).2 up rest) :
    Drew (rules disk metaName (.mk info (front ++ c :: back))) (.mk info (front ++ c :: back))
      (arrange disk metaName way w (.mk info (front ++ c :: back))).2 (c.segment :: up) rest := by
  obtain ⟨key, o, id, below, more, top, hmem, ha, hk, hstood, htop, hstands⟩ := h
  have hc : c ∈ (Folder.mk info (front ++ c :: back)).children := by simp
  obtain ⟨-, file, -, he⟩ := arrange_step hs
  have hinside : c.segment :: top ∈
      (Folder.mk info (arrangeAll disk metaName way w (front ++ c :: back)).2).homes id :=
    Folder.cons_mem_sites.mpr ⟨_, List.mem_of_find?_eq_some (arrangeAll_find? hfront),
      arrange_segment c, hstands⟩
  rw [← rules_inside ht hc] at hmem
  have hbefore := (Folder.mem_sites_child ht hc).mpr hstood
  rw [he]
  rcases (arrangeBy_lifts file).stays id _ hinside with hend | hend
  · exact ⟨key, o, id, below, more, c.segment :: top, hmem, ha, hk, hbefore,
      List.cons_prefix_cons.mpr ⟨rfl, htop⟩, hend⟩
  · exact ⟨key, o, id, below, more, [], hmem, ha, hk, hbefore, List.nil_prefix, hend⟩

/-- What is full when a folder has its turn stays full, or the folder drew from it. -/
theorem full_or_drew {segment : String} {v : List String}
    (hs : (arrange disk metaName way w (.mk info children)).1.stop = none)
    (h : Full (segment :: v) (.mk info (arrangeAll disk metaName way w children).2)) :
    Full (segment :: v) (arrange disk metaName way w (.mk info children)).2 ∨
      Drew (rules disk metaName (.mk info children)) (.mk info children)
        (arrange disk metaName way w (.mk info children)).2 [] (segment :: v) := by
  obtain ⟨hsall, file, hfile, he⟩ := arrange_step hs
  rw [he]
  rcases arrangeBy_full file metaName way (arrangeAll disk metaName way w children).1 h with
    hfull | ⟨key, o, id, below, hmem, happlies, hk, hhome, htop⟩
  · exact Or.inl hfull
  · obtain ⟨more, hmore⟩ :=
      arrangeAll_homes (fun b _ v w hstop r hr => arrange_homes hstop hr) hsall hhome
    refine Or.inr ⟨key, o, id, below, more, [], ?_, happlies, hk, hmore, List.prefix_rfl, htop⟩
    rw [rules_nil, Folder.info_mk, entriesAt_eq hfile]
    exact hmem

/-- Arranging leads the same ways. -/
theorem find?_of_arrange {f : Folder} (ht : f.Tidy) (hs : (arrange disk metaName way w f).1.stop = none)
    (v : List String) : (∃ g, (arrange disk metaName way w f).2.find? v = some g) ↔
      ∃ g, f.find? v = some g := by
  have hsource := congrArg Option.isSome (arrange_source ht hs v)
  rw [Option.isSome_map, Option.isSome_map] at hsource
  rw [← Option.isSome_iff_exists, ← Option.isSome_iff_exists, hsource]

/-- A folder that is listed is not empty, unless a folder above the one that lists it drew from
it. -/
theorem arrange_listed {f h : Folder} {v : List String} {segment : String} (ht : f.Tidy)
    (hs : (arrange disk metaName way w f).1.stop = none)
    (hh : (arrange disk metaName way w f).2.find? v = some h)
    (hitem : .folder segment ∈ h.info.items) :
    ∃ c, h.child? segment = some c ∧ (c.isEmpty = true → ∃ up rest, v = up ++ rest ∧ rest ≠ [] ∧
      Drew (rules disk metaName f) f (arrange disk metaName way w f).2 up (rest ++ [segment])) := by
  induction v generalizing f h way w with
  | nil =>
    obtain ⟨info, children⟩ := f
    obtain ⟨-, file, -, he⟩ := arrange_step hs
    rw [he] at hh
    cases hh
    obtain ⟨c, hc, hne⟩ := arrangeBy_listsFull file segment hitem
    refine ⟨c, hc, fun hempty => ?_⟩
    rw [hempty] at hne
    cases hne
  | cons name v ih =>
    obtain ⟨g, hg⟩ := (find?_of_arrange ht hs (name :: v)).mp ⟨h, hh⟩
    obtain ⟨info, children⟩ := f
    obtain ⟨c, front, back, rfl, rfl, hfront, hfind⟩ := Folder.split_of_find? hg
    obtain ⟨hone, d, hd, hcd⟩ := arrange_child hfront hs
    have hctidy : c.Tidy := ht.child (by simp)
    -- the folder after the turn of the folder inside, and what became of it at the top
    obtain ⟨a, ha⟩ := (find?_of_arrange hctidy hone v).mpr ⟨g, hfind⟩
    obtain ⟨b, hb, hworn⟩ := hcd.find?_worn ha
    obtain rfl : b = h := by
      rw [Folder.find?, hd] at hh
      exact Option.some.inj (hb.symm.trans hh)
    have hlisted : .folder segment ∈ a.info.items := by
      obtain ⟨p, -, hkept⟩ := hworn.items
      rw [hkept] at hitem
      exact List.mem_of_mem_filter hitem
    obtain ⟨x, hx, hempty⟩ := ih hctidy hone ha hlisted
    obtain ⟨y, hy, -⟩ := hworn.find?_worn ((Folder.find?_one a segment).trans hx)
    rw [Folder.find?_one] at hy
    refine ⟨y, hy, fun hyempty => ?_⟩
    cases hxempty : x.isEmpty with
    | true =>
      obtain ⟨up, rest, rfl, hne, hdrew⟩ := hempty hxempty
      exact ⟨c.segment :: up, rest, rfl, hne, hdrew.inside hfront ht hs⟩
    | false =>
      -- it was emptied in the turn of the folder at the top
      have hbefore : Full (c.segment :: (v ++ [segment]))
          (.mk info (arrangeAll disk metaName way w (front ++ c :: back)).2) := by
        refine full_cons.mpr ⟨_, arrangeAll_find? hfront, x, ?_, hxempty⟩
        rw [Folder.find?_snoc, ha]
        exact hx
      rcases full_or_drew hs hbefore with ⟨z, hz, hzfull⟩ | hdrew
      · rw [← List.cons_append, Folder.find?_snoc, hh, Option.bind_some, hy] at hz
        obtain rfl : y = z := Option.some.inj hz
        rw [hyempty] at hzfull
        cases hzfull
      · exact ⟨[], c.segment :: v, rfl, List.cons_ne_nil _ _, hdrew⟩

end Arrange

/-! ## Without the empty folders -/

namespace Folder

mutual

/-- The tree without empty folders in its lists. They stay in the tree. -/
def swept : Folder → Folder
  | .mk info children =>
    .mk { info with items := info.items.filter (!Arrange.isDrained children ·) } (sweptAll children)

def sweptAll : List Folder → List Folder
  | [] => []
  | c :: rest => c.swept :: sweptAll rest

end

theorem sweptAll_eq (cs : List Folder) : sweptAll cs = cs.map swept := by
  induction cs with
  | nil => rfl
  | cons c cs ih => rw [sweptAll, ih, List.map_cons]

theorem swept_mk (info : FolderInfo) (children : List Folder) :
    (Folder.mk info children).swept =
      .mk { info with items := info.items.filter (!Arrange.isDrained children ·) }
        (children.map swept) := by
  rw [swept, sweptAll_eq]

theorem swept_segment (f : Folder) : f.swept.segment = f.segment := by
  obtain ⟨info, children⟩ := f
  rw [swept_mk]
  rfl

theorem swept_label (f : Folder) : f.swept.info.label = f.info.label := by
  obtain ⟨info, children⟩ := f
  rw [swept_mk]
  rfl

theorem swept_isEmpty (f : Folder) : f.swept.isEmpty = f.isEmpty := by
  induction f with
  | mk info children ih =>
    rw [swept_mk, Bool.eq_iff_iff, isEmpty_mk, isEmpty_mk]
    simp only [List.forall_mem_map]
    exact and_congr_right fun _ => and_congr_right fun _ =>
      forall₂_congr fun c hc => by rw [ih c hc]

theorem swept_find? (cs : List Folder) (segment : String) :
    (cs.map swept).find? (·.segment == segment) =
      (cs.find? (·.segment == segment)).map swept := by
  rw [List.find?_map, Function.comp_def]
  simp only [swept_segment]

theorem swept_listsFull (f : Folder) : Every ListsFull f.swept := by
  induction f with
  | mk info children ih =>
    rw [swept_mk]
    refine .mk (fun segment hitem => ?_) fun c hc => ?_
    · obtain ⟨-, hdrained⟩ := List.mem_filter.mp hitem
      unfold child?
      rw [children_mk, swept_find?]
      simp only [Arrange.isDrained] at hdrained
      cases hc : children.find? (·.segment == segment) with
      | none =>
        rw [hc] at hdrained
        cases hdrained
      | some c =>
        rw [hc] at hdrained
        exact ⟨c.swept, rfl, by simpa [swept_isEmpty] using hdrained⟩
    · obtain ⟨b, hb, rfl⟩ := List.mem_map.mp hc
      exact ih b hb

end Folder

namespace Outline

/-- An empty folder has no entries. -/
theorem ofItem_drained {p : Places} {way : List String} {depth : Nat} {children : List Folder}
    {inside : List (String × List OutlineEntry)} {item : Item}
    (h : Arrange.isDrained children item = true) : ofItem p way depth children inside item = [] := by
  cases item with
  | folder segment =>
    simp only [Arrange.isDrained] at h
    simp only [ofItem]
    cases hc : children.find? (·.segment == segment) with
    | none => rfl
    | some c =>
      rw [hc] at h
      dsimp only
      rw [if_pos (by simpa using h)]
  | _ => cases h

theorem ofItem_swept (p : Places) (way : List String) (depth : Nat) (children : List Folder)
    (inside : List (String × List OutlineEntry)) (item : Item) :
    ofItem p way depth (children.map Folder.swept) inside item =
      ofItem p way depth children inside item := by
  cases item with
  | folder segment =>
    simp only [ofItem, Folder.swept_find?]
    cases children.find? (·.segment == segment) with
    | none => rfl
    | some c => simp only [Option.map_some, Folder.swept_isEmpty, Folder.swept_label]
  | _ => rfl

/-- The entries of a folder are those of its full folders. -/
theorem ofFolder_swept (p : Places) (way : List String) (depth : Nat) (f : Folder) :
    ofFolder p way depth f.swept = ofFolder p way depth f := by
  induction f generalizing way depth with
  | mk info children ih =>
    have hinside : ofFolders p way (depth + 1) (children.map Folder.swept) =
        ofFolders p way (depth + 1) children := by
      rw [ofFolders_eq, ofFolders_eq, List.map_map]
      refine List.map_congr_left fun c hc => ?_
      rw [Function.comp_apply, Folder.swept_segment, ih c hc]
    rw [Folder.swept_mk, ofFolder, ofFolder, hinside]
    dsimp only
    generalize ofFolders p way (depth + 1) children = inside
    induction info.items with
    | nil => rfl
    | cons item items ihitems =>
      rw [List.filter_cons, List.flatMap_cons]
      split
      · rw [List.flatMap_cons, ihitems, ofItem_swept]
      · next h => rw [ihitems, ofItem_drained (by simpa using h), List.nil_append]

end Outline

namespace Tree

/-- When a tree is arranged to the end, a folder that stands in a list is there, and it is not empty
unless a folder above the one of the list has a key that takes a chapter out of it, or out of one
inside it; the list of the root has no empty folder. The lines of the table of contents are those of
the tree without the empty folders in its lists. -/
theorem an_empty_folder_is_listed_only_below_one_that_drew_from_it {t done : Tree} {disk : Disk}
    {notices : List Notice} (ht : t.root.Tidy) (h : t.arrange disk = (done, notices, none)) :
    (∀ way f segment, done.root.find? way = some f → .folder segment ∈ f.info.items →
      ∃ c, f.child? segment = some c ∧ (c.isEmpty = true → ∃ up rest,
        way = up ++ rest ∧ rest ≠ [] ∧
        Arrange.Drew (Arrange.rules disk t.metaName t.root) t.root done.root up (rest ++ [segment]))) ∧
    done.root.ListsFull ∧ Every Folder.ListsFull done.root.swept ∧
    ∀ s, Outline.lines s { done with root := done.root.swept } = Outline.lines s done := by
  have hstop : (Arrange.arrange disk t.metaName [] ⟨t.chapters, [], none⟩ t.root).1.stop = none :=
    congrArg (·.2.2) h
  have hroot : (Arrange.arrange disk t.metaName [] ⟨t.chapters, [], none⟩ t.root).2 = done.root :=
    congrArg (·.1.root) h
  have hlisted : ∀ way f segment, done.root.find? way = some f → .folder segment ∈ f.info.items →
      ∃ c, f.child? segment = some c ∧ (c.isEmpty = true → ∃ up rest,
        way = up ++ rest ∧ rest ≠ [] ∧
        Arrange.Drew (Arrange.rules disk t.metaName t.root) t.root done.root up (rest ++ [segment])) :=
    fun way f segment hf hitem => by
    rw [← hroot] at hf ⊢
    exact Arrange.arrange_listed ht hstop hf hitem
  refine ⟨hlisted, fun segment hitem => ?_, done.root.swept_listsFull, fun s => ?_⟩
  · obtain ⟨c, hc, hempty⟩ := hlisted [] done.root segment rfl hitem
    refine ⟨c, hc, Bool.eq_false_iff.mpr fun he => ?_⟩
    obtain ⟨up, rest, hway, hne, -⟩ := hempty he
    exact hne (List.append_eq_nil_iff.mp hway.symm).2
  · exact congrArg (Outline.layout false) (Outline.ofFolder_swept (.of s done) [] 0 done.root)

/-- The folder of the second chapter names the one inside, and the folder at the top takes the first
chapter out of that one. -/
def drainingDisk : Disk :=
  ⟨[(["r"], .directory), (["r", "a"], .directory),
    (["r", "_meta.json"], .file (Text.encode "\x7b\"a/b/x\": \"X\"\x7d")),
    (["r", "a", "_meta.json"], .file (Text.encode "\x7b\"b\": \"B\"\x7d"))]⟩

theorem sample_drained : (sampleTree.arrange drainingDisk).2.2 = none ∧
    ∃ f c, (sampleTree.arrange drainingDisk).1.root.find? ["a"] = some f ∧
      .folder "b" ∈ f.info.items ∧ f.child? "b" = some c ∧ c.isEmpty = true := by
  refine ⟨by decide +kernel, ?_⟩
  have hlisted : ((sampleTree.arrange drainingDisk).1.root.find? ["a"]).any (fun f =>
      decide (.folder "b" ∈ f.info.items) && (f.child? "b").any (·.isEmpty)) := by decide +kernel
  simp only [Option.any_eq_true, Bool.and_eq_true, decide_eq_true_eq] at hlisted
  obtain ⟨f, hf, hitem, c, hc, hempty⟩ := hlisted
  exact ⟨f, c, hf, hitem, hc, hempty⟩

theorem the_top_drew_from_a_listed_folder : sampleTree.root.Tidy ∧
    sampleTree.arrange drainingDisk = ((sampleTree.arrange drainingDisk).1,
      (sampleTree.arrange drainingDisk).2.1, none) ∧
    (sampleTree.arrange drainingDisk).1.root.ListsFull ∧
    Arrange.Drew (Arrange.rules drainingDisk "_meta.json" sampleTree.root) sampleTree.root
      (sampleTree.arrange drainingDisk).1.root [] ["a", "b"] := by
  obtain ⟨hstop, f, c, hf, hitem, hc, hempty⟩ := sample_drained
  have hdone : sampleTree.arrange drainingDisk = ((sampleTree.arrange drainingDisk).1,
      (sampleTree.arrange drainingDisk).2.1, none) := by
    rw [← hstop]
  obtain ⟨hlisted, hroot, -, -⟩ :=
    an_empty_folder_is_listed_only_below_one_that_drew_from_it made_tidy hdone
  obtain ⟨d, hd, hdrew⟩ := hlisted ["a"] f "b" hf hitem
  obtain rfl : c = d := Option.some.inj (hc.symm.trans hd)
  obtain ⟨up, rest, hway, hne, hdrew⟩ := hdrew hempty
  obtain ⟨rfl, rfl⟩ : up = [] ∧ rest = ["a"] := by
    cases up with
    | nil => exact ⟨rfl, hway.symm⟩
    | cons name up =>
      obtain ⟨-, hrest⟩ := List.cons_eq_cons.mp hway
      exact absurd (List.append_eq_nil_iff.mp hrest.symm).2 hne
  exact ⟨made_tidy, hdone, hroot, hdrew⟩

/-- A folder that is emptied after the one that lists it had its turn stays in that list. -/
theorem a_list_can_keep_a_folder_that_was_emptied :
    (sampleTree.arrange drainingDisk).2.2 = none ∧
    ¬ Every Folder.ListsFull (sampleTree.arrange drainingDisk).1.root := by
  obtain ⟨hstop, f, c, hf, hitem, hc, hempty⟩ := sample_drained
  refine ⟨hstop, fun hfull => ?_⟩
  obtain ⟨d, hd, hne⟩ := (Every.find? hfull hf).here "b" hitem
  obtain rfl : c = d := Option.some.inj (hc.symm.trans hd)
  rw [hempty] at hne
  cases hne

end Tree

end Sourcebook
