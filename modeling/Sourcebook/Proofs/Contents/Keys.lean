-- All keys of an override file, one after the other. What the file says about a name decides
-- how the name is listed, wherever its key stands in the file.
import Mathlib
import Sourcebook.Proofs.Contents.Pass

namespace Sourcebook

open Folder (Lost Every Tidy Fades Steady)

namespace Arrange

/-- The keys of a file, worked off in their order. -/
def Draft.keys (path metaName : String) (held : List (String × Item))
    (entries : List (String × Override)) (d : Draft) : Draft :=
  entries.foldl (fun d e => Draft.key d path metaName held e.1 e.2) d

/-! ## The folders inside -/

/-- A property of the folders inside that stays when one of them gets another label or loses
a chapter. -/
structure Lasting (Q : List Folder → Prop) : Prop where
  relabel : ∀ {children} segment label, Q children → Q (Arrange.relabel segment label children)
  lost : ∀ {id way f g}, Lost id way f g → Q f.children → Q g.children

/-- Listing an item at most gives one of the folders inside another label. -/
theorem Draft.place_children {Q : List Folder → Prop}
    (hQ : ∀ {children} segment label, Q children → Q (Arrange.relabel segment label children))
    {d : Draft} (h : Q d.children) (o : Override) (item : Item) : Q (d.place o item).children := by
  have hrename : ∀ title, Q (d.rename title item).1.children := by
    intro title
    cases item with
    | folder segment => exact hQ _ _ h
    | chapter id => exact h
    | page p => exact h
    | separator t => exact h
  obtain ⟨e, he, hplace⟩ := d.place_cases o item
  have hchildren : Q e.1.children := by
    rcases he with rfl | ⟨title, rfl⟩
    · exact h
    · exact hrename title
  rw [hplace]
  split <;> exact hchildren

theorem Draft.places_children {Q : List Folder → Prop}
    (hQ : ∀ {children} segment label, Q children → Q (Arrange.relabel segment label children))
    (o : Override) {items : List Item} {d : Draft} (h : Q d.children) :
    Q (items.foldl (fun d item => d.place o item) d).children := by
  induction items generalizing d with
  | nil => exact h
  | cons item items ih => exact ih (Draft.place_children hQ h o item)

theorem Lasting.key {Q : List Folder → Prop} (hQ : Lasting Q) {d : Draft} (h : Q d.children)
    (path metaName : String) (held : List (String × Item)) (key : String) (o : Override) :
    Q (d.key path metaName held key o).children := by
  have hturn := d.key_turn path metaName held key o
  generalize d.key path metaName held key o = e at hturn
  cases hturn with
  | rest _ => exact h
  | separator _ => exact h
  | named _ _ => exact Draft.places_children hQ.relabel o h
  | missed _ _ _ _ => exact h
  | hoisted _ _ _ hl => exact Draft.place_children hQ.relabel (hQ.lost hl h) o _
  | unknown _ _ _ _ _ => exact h

theorem Lasting.keys {Q : List Folder → Prop} (hQ : Lasting Q) {path metaName : String}
    {held : List (String × Item)} {entries : List (String × Override)} {d : Draft}
    (h : Q d.children) : Q (d.keys path metaName held entries).children := by
  induction entries generalizing d with
  | nil => exact h
  | cons e entries ih => exact ih (hQ.key h path metaName held e.1 e.2)

theorem mem_relabel {segment label : String} {cs : List Folder} {c : Folder} :
    c ∈ relabel segment label cs →
      c ∈ cs ∨ ∃ b ∈ cs, c = b.withInfo fun i => { i with label := label } := by
  unfold relabel
  rw [List.mem_map]
  rintro ⟨b, hb, rfl⟩
  split
  · exact Or.inr ⟨b, hb, rfl⟩
  · exact Or.inl hb

theorem fades_relabel (segment label : String) (cs : List Folder) :
    List.Forall₂ Fades cs (relabel segment label cs) := by
  unfold relabel
  induction cs with
  | nil => exact .nil
  | cons c cs ih =>
    refine .cons ?_ ih
    dsimp only
    split
    · obtain ⟨info, children⟩ := c
      exact ⟨rfl, by simp [Folder.withInfo, Folder.isEmpty]⟩
    · exact .refl c

/-- What is steady stays in every folder inside. -/
theorem lasting_every {P : Folder → Prop} (hP : Steady P) :
    Lasting fun children => ∀ c ∈ children, Every P c where
  relabel segment label h c hc := by
    rcases mem_relabel hc with hc | ⟨⟨info, children⟩, hb, rfl⟩
    · exact h c hc
    · exact .mk (hP.label _ (h _ hb).here) fun b hb' => (h _ hb).child (f := .mk _ _) hb'
  lost hl h c hc := by
    cases hl with
    | here _ => exact h c hc
    | inside hb hl =>
      rcases List.mem_append.mp hc with hc | hc
      · exact h c (by simp [hc])
      · rcases List.mem_cons.mp hc with rfl | hc
        · exact hl.every hP (h _ (by simp))
        · exact h c (by simp [hc])

theorem lasting_fades (cs : List Folder) : Lasting (List.Forall₂ Fades cs) where
  relabel segment label h :=
    Folder.fades_trans h (fades_relabel segment label _)
  lost hl h := Folder.fades_trans h hl.fades_inside

theorem lasting_neat (info : FolderInfo) :
    Lasting fun children => (Folder.mk info children).Neat where
  relabel segment label h := Folder.steady_neat.inside (fades_relabel segment label _) h
  lost hl h := Folder.steady_neat.inside hl.fades_inside h

theorem lasting_tidy (info : FolderInfo) : Lasting fun children => (Folder.mk info children).Tidy where
  relabel segment label h :=
    .mk ((lasting_neat info).relabel segment label h.here)
      ((lasting_every Folder.steady_neat).relabel segment label fun _ hc => h.child hc)
  lost hl h :=
    .mk ((lasting_neat info).lost hl h.here)
      ((lasting_every Folder.steady_neat).lost hl fun _ hc => h.child hc)

/-- What only depends on where folders and pages come from stands where it stood. -/
structure Fixed (n : FolderInfo → Nat) : Prop where
  same : ∀ i j : FolderInfo, i.source = j.source →
    i.pages.map (fun p => (p.id, p.path)) = j.pages.map (fun p => (p.id, p.path)) → n i = n j

theorem lasting_sites {n : FolderInfo → Nat} (hn : Fixed n) (sites : List (List String)) :
    Lasting fun children => Folder.sitesOf n children = sites where
  relabel segment label h := (sitesOf_relabel (fun _ _ => hn.same _ _ rfl rfl) segment label _).trans h
  lost hl h := by
    refine Eq.trans ?_ h
    cases hl with
    | here _ => rfl
    | inside _ hl =>
      simp only [Folder.children_mk, Folder.sitesOf_append, Folder.sitesOf, hl.segment_eq,
        hl.sites_eq fun _ => hn.same _ _ rfl rfl]

/-! ## The folder itself -/

/-- What no key changes: the name and the directory of the folder, its pages but for their
titles, and whether the work stopped. -/
def Draft.frame (d : Draft) : String × Path × List (String × String) × Option Trouble :=
  (d.info.segment, d.info.source, d.info.pages.map (fun p => (p.id, p.path)), d.work.stop)

theorem Draft.frame_place (d : Draft) (o : Override) (item : Item) :
    (d.place o item).frame = d.frame := by
  have hrename : ∀ title, (d.rename title item).1.frame = d.frame := by
    intro title
    cases item with
    | page p =>
      simp only [Draft.rename, Draft.frame, List.map_map, Function.comp_def]
      congr 3
      refine List.map_congr_left fun q _ => ?_
      split <;> rfl
    | folder segment => rfl
    | chapter id => rfl
    | separator t => rfl
  obtain ⟨e, he, hplace⟩ := d.place_cases o item
  have hframe : e.1.frame = d.frame := by
    rcases he with rfl | ⟨title, rfl⟩
    · rfl
    · exact hrename title
  rw [hplace]
  split <;> exact hframe

theorem Draft.frame_places (o : Override) (items : List Item) (d : Draft) :
    (items.foldl (fun d item => d.place o item) d).frame = d.frame := by
  induction items generalizing d with
  | nil => rfl
  | cons item items ih => rw [List.foldl_cons, ih, Draft.frame_place]

theorem Draft.frame_key (path metaName : String) (held : List (String × Item)) (d : Draft)
    (key : String) (o : Override) : (d.key path metaName held key o).frame = d.frame := by
  have hturn := d.key_turn path metaName held key o
  generalize d.key path metaName held key o = e at hturn
  cases hturn with
  | rest _ => rfl
  | separator _ => rfl
  | named _ _ => exact Draft.frame_places _ _ _
  | missed _ _ _ _ => rfl
  | hoisted _ _ _ _ => exact Draft.frame_place _ _ _
  | unknown _ _ _ _ _ => rfl

theorem Draft.frame_keys (path metaName : String) (held : List (String × Item))
    (entries : List (String × Override)) (d : Draft) :
    (d.keys path metaName held entries).frame = d.frame := by
  induction entries generalizing d with
  | nil => rfl
  | cons e entries ih => exact (ih _).trans (d.frame_key path metaName held e.1 e.2)

/-! ## What is listed -/

/-- Entries list a name by a key of its own. -/
def shows (entries : List (String × Override)) (name : String) : Bool :=
  ((Override.about entries name).map (!·.hidden)).getD false

/-- A kind of items that a new name does not change. Chapters and separators are not of it. -/
structure Kind (q : Item → Bool) : Prop where
  rename : ∀ (d : Draft) title item, q (d.rename title item).2 = q item
  chapter : ∀ id, q (.chapter id) = false
  separator : ∀ title, q (.separator title) = false

theorem Draft.used_place (d : Draft) (o : Override) (item : Item) :
    (d.place o item).used = d.used := by
  obtain ⟨e, he, hplace⟩ := d.place_cases o item
  have hused : e.1.used = d.used := by
    rcases he with rfl | ⟨title, rfl⟩
    · rfl
    · cases item <;> rfl
  rw [hplace]
  split <;> exact hused

theorem Draft.used_places (o : Override) (items : List Item) (d : Draft) :
    (items.foldl (fun d item => d.place o item) d).used = d.used := by
  induction items generalizing d with
  | nil => rfl
  | cons item items ih => rw [List.foldl_cons, ih, Draft.used_place]

/-- A key takes a name when it applies and the name is held. -/
theorem Draft.mem_used_key {path metaName : String} {held : List (String × Item)} {d : Draft}
    {key name : String} {o : Override} :
    name ∈ (d.key path metaName held key o).used ↔
      name ∈ d.used ∨ (name = key ∧ Override.applies key o = true ∧ key ∈ held.map (·.1)) := by
  have hturn := d.key_turn path metaName held key o
  generalize d.key path metaName held key o = e at hturn
  cases hturn with
  | rest hn => simp [hn]
  | separator hn => simp [hn]
  | named ha hk =>
    rw [Draft.used_places]
    simp only [List.mem_cons, ha, hk, and_self, and_true]
    exact or_comm
  | missed _ _ hk _ => simp [hk]
  | hoisted _ hk _ _ =>
    rw [Draft.used_place]
    simp [hk, Draft.taken]
  | unknown _ _ hk _ _ => simp [hk]

theorem Draft.mem_used_keys {path metaName : String} {held : List (String × Item)}
    {entries : List (String × Override)} {d : Draft} {name : String} :
    name ∈ (d.keys path metaName held entries).used ↔
      name ∈ d.used ∨ ((Override.about entries name).isSome ∧ name ∈ held.map (·.1)) := by
  induction entries generalizing d with
  | nil => simp [Draft.keys, Override.about]
  | cons e entries ih =>
    obtain ⟨key, o⟩ := e
    have hstep := ih (d := d.key path metaName held key o)
    rw [Draft.mem_used_key] at hstep
    refine hstep.trans ?_
    rw [Override.about_cons]
    split
    · next h =>
      obtain ⟨rfl, ha⟩ := h
      simp only [ha, true_and, Option.isSome_some]
      tauto
    · next h =>
      have hno : ¬ (name = key ∧ Override.applies key o = true ∧ key ∈ held.map (·.1)) :=
        fun hc => h ⟨hc.1.symm, hc.2.1⟩
      tauto

theorem Draft.countP_place {q : Item → Bool} (hq : Kind q) (d : Draft) (o : Override) (item : Item) :
    (d.place o item).configured.countP q =
      d.configured.countP q + if o.hidden then 0 else [item].countP q := by
  obtain ⟨e, he, hplace⟩ := d.place_cases o item
  have hitem : e.1.configured = d.configured ∧ q e.2 = q item := by
    rcases he with rfl | ⟨title, rfl⟩
    · exact ⟨rfl, rfl⟩
    · exact ⟨d.rename_configured title item, hq.rename d title item⟩
  rw [hplace]
  split
  · simp [hitem.1]
  · simp [hitem.1, hitem.2, List.countP_append, List.countP_cons]

theorem Draft.countP_places {q : Item → Bool} (hq : Kind q) (o : Override) (items : List Item)
    (d : Draft) : (items.foldl (fun d item => d.place o item) d).configured.countP q =
      d.configured.countP q + if o.hidden then 0 else items.countP q := by
  induction items generalizing d with
  | nil => simp
  | cons item items ih =>
    rw [List.foldl_cons, ih, Draft.countP_place hq]
    split
    · rfl
    · simp only [List.countP_cons, List.countP_nil]
      omega

theorem Draft.countP_key {q : Item → Bool} (hq : Kind q) {path metaName : String}
    {held : List (String × Item)} {d : Draft} {key : String} {o : Override} :
    (d.key path metaName held key o).configured.countP q =
      d.configured.countP q +
        if Override.applies key o && !o.hidden then (named held key).countP q else 0 := by
  have hturn := d.key_turn path metaName held key o
  generalize d.key path metaName held key o = e at hturn
  cases hturn with
  | rest hn => simp [hn]
  | separator hn => simp [hn, List.countP_append, hq.separator]
  | named ha hk =>
    rw [Draft.countP_places hq]
    cases ho : o.hidden <;> simp [ha]
  | missed _ _ hk _ => simp [named_eq_nil.mpr hk]
  | hoisted _ hk _ _ =>
    rw [Draft.countP_place hq]
    simp [named_eq_nil.mpr hk, Draft.taken, hq.chapter]
  | unknown _ _ hk _ _ => simp [named_eq_nil.mpr hk]

theorem shows_eq_false {entries : List (String × Override)} {name : String}
    (h : name ∉ entries.map (·.1)) : shows entries name = false := by
  unfold shows
  rw [Override.about_eq_none.mpr fun o ho => absurd (List.mem_map.mpr ⟨_, ho, rfl⟩) h]
  rfl

/-- A key speaks for its own name only, and no key after it does. -/
theorem shows_cons {key name : String} {o : Override} {entries : List (String × Override)}
    (hkey : key ∉ entries.map (·.1)) :
    shows ((key, o) :: entries) name =
      ((name == key && (Override.applies key o && !o.hidden)) || shows entries name) := by
  by_cases hk : name = key
  · subst hk
    rw [shows_eq_false hkey, shows, Override.about_cons]
    by_cases ha : Override.applies name o = true
    · simp [ha]
    · have hnone := Override.about_eq_none.mpr fun o' ho =>
        absurd (List.mem_map.mpr ⟨(name, o'), ho, rfl⟩) hkey
      simp [ha, hnone]
  · rw [shows, Override.about_cons, if_neg fun hc => hk hc.1.symm]
    simp [hk, shows]

theorem countP_add_of_disjoint {α : Type} {p r : α → Bool} {l : List α}
    (h : ∀ a ∈ l, p a = true → r a = false) :
    l.countP p + l.countP r = l.countP fun a => p a || r a := by
  induction l with
  | nil => rfl
  | cons a l ih =>
    have hl := ih fun b hb => h b (List.mem_cons_of_mem _ hb)
    have ha := h a List.mem_cons_self
    simp only [List.countP_cons, ← hl]
    cases hp : p a with
    | true => simp [ha hp]; omega
    | false => simp; omega

/-- What the keys of a file list of a kind is what is held of it under names that the file
shows. -/
theorem Draft.countP_keys {q : Item → Bool} (hq : Kind q) {path metaName : String}
    {held : List (String × Item)} {entries : List (String × Override)} {d : Draft}
    (hn : (entries.map (·.1)).Nodup) :
    (d.keys path metaName held entries).configured.countP q =
      d.configured.countP q + held.countP fun h => q h.2 && shows entries h.1 := by
  induction entries generalizing d with
  | nil => simp [Draft.keys, shows, Override.about]
  | cons e entries ih =>
    obtain ⟨key, o⟩ := e
    rw [List.map_cons, List.nodup_cons] at hn
    have hone : (if Override.applies key o && !o.hidden then (named held key).countP q else 0) =
        held.countP fun h => q h.2 && (h.1 == key && (Override.applies key o && !o.hidden)) := by
      unfold named
      rw [List.countP_map, List.countP_filter]
      cases Override.applies key o && !o.hidden with
      | true => simp
      | false => simp
    have hdisjoint : ∀ h ∈ held,
        (q h.2 && (h.1 == key && (Override.applies key o && !o.hidden))) = true →
          (q h.2 && shows entries h.1) = false := by
      intro h _ hp
      simp only [Bool.and_eq_true, beq_iff_eq] at hp
      rw [hp.2.1, shows_eq_false hn.1, Bool.and_false]
    have hrest := ih (d := d.key path metaName held key o) hn.2
    rw [Draft.countP_key hq, hone, Nat.add_assoc, countP_add_of_disjoint hdisjoint] at hrest
    simp only [shows_cons hn.1, Bool.and_or_distrib_left]
    exact hrest

/-! ## The list of a folder -/

/-- The list of a folder holds what the keys listed and what they left. -/
theorem Draft.countP_finish {q : Item → Bool} {d : Draft} {held : List (String × Item)}
    (hq : ∀ item, q item = true → isDrained d.children item = false) :
    (d.finish held).countP q =
      d.configured.countP q + held.countP fun h => q h.2 && !d.used.contains h.1 := by
  have hdrained : ∀ items : List Item,
      (items.filter (!isDrained d.children ·)).countP q = items.countP q := by
    intro items
    rw [List.countP_filter]
    refine List.countP_congr fun item _ => ?_
    by_cases h : q item = true
    · simp [h, hq item h]
    · simp [h]
  have hsplit : ∀ n, (d.configured.take n).countP q + (d.configured.drop n).countP q =
      d.configured.countP q := by
    intro n
    rw [← List.countP_append, List.take_append_drop]
  unfold Draft.finish sortRest
  dsimp only
  rw [hdrained, List.countP_append, List.countP_append, (List.mergeSort_perm _ _).countP_eq,
    List.countP_map, List.countP_filter, ← hsplit (d.restAt.getD d.configured.length)]
  simp only [Function.comp_def]
  omega

/-- Every item of a kind that a folder holds is listed, unless the file hides its name. -/
theorem countP_listed {q : Item → Bool} (hq : Kind q) {path metaName : String}
    {held : List (String × Item)} {entries : List (String × Override)} {d : Draft}
    (hn : (entries.map (·.1)).Nodup) (hc : d.configured = []) (hu : d.used = [])
    (hdrained : ∀ item, q item = true →
      isDrained (d.keys path metaName held entries).children item = false) :
    ((d.keys path metaName held entries).finish held).countP q =
      held.countP fun h => q h.2 && !Override.hides entries h.1 := by
  rw [Draft.countP_finish hdrained, Draft.countP_keys hq hn, hc, List.countP_nil, Nat.zero_add]
  have hused : ∀ h ∈ held, (d.keys path metaName held entries).used.contains h.1 =
      (Override.about entries h.1).isSome := by
    intro h hh
    rw [Bool.eq_iff_iff, List.contains_iff_mem, Draft.mem_used_keys, hu]
    simp [List.mem_map_of_mem hh]
  rw [countP_add_of_disjoint]
  · refine List.countP_congr fun h hh => ?_
    rw [hused h hh, shows, Override.hides]
    cases Override.about entries h.1 <;> simp
  · intro h hh hp
    rw [shows] at hp
    rw [hused h hh]
    cases ho : Override.about entries h.1 with
    | none => simp [ho] at hp
    | some o => simp

end Arrange

end Sourcebook
