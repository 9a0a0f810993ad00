-- A key that finds no chapter changes nothing in the whole tree: with the key and without it the
-- tree is the same, and one more warning is given.
import Mathlib
import Sourcebook.Proofs.Contents.Notices

namespace Sourcebook

open Folder (Lost Every Tidy Plain)

namespace Arrange

variable {disk disk₁ disk₂ : Disk} {metaName : String} {way : List String} {w : Work}
  {info : FolderInfo} {children : List Folder}

/-! ## Disks that say the same -/

theorem arrangeHere_congr (h : fileAt disk₁ metaName info = fileAt disk₂ metaName info) :
    arrangeHere disk₁ metaName way w info children = arrangeHere disk₂ metaName way w info children := by
  unfold arrangeHere
  rw [show OverrideFile.read disk₁ _ = OverrideFile.read disk₂ _ from h]

theorem arrangeAll_congr {cs : List Folder}
    (hone : ∀ c ∈ cs, ∀ v w, arrange disk₁ metaName v w c = arrange disk₂ metaName v w c) :
    arrangeAll disk₁ metaName way w cs = arrangeAll disk₂ metaName way w cs := by
  induction cs generalizing w with
  | nil => simp [arrangeAll]
  | cons c cs ih =>
    simp only [arrangeAll_cons, hone c List.mem_cons_self,
      ih fun d hd => hone d (List.mem_cons_of_mem _ hd)]

/-- A tree is arranged by what the override files of its folders say, and by nothing else. -/
theorem arrange_congr {f : Folder} (hf : f.Tidy)
    (h : ∀ v g, f.find? v = some g → fileAt disk₁ metaName g.info = fileAt disk₂ metaName g.info) :
    arrange disk₁ metaName way w f = arrange disk₂ metaName way w f := by
  induction f generalizing way w with
  | mk info children ih =>
    have hall : ∀ w, arrangeAll disk₁ metaName way w children =
        arrangeAll disk₂ metaName way w children := fun w =>
      arrangeAll_congr fun c hc v w => ih c hc (hf.child hc) fun u g hg =>
        h (c.segment :: u) g (by rw [Folder.find?_inside hf hc]; exact hg)
    rw [arrange_mk, arrange_mk, hall]
    exact arrangeHere_congr (h [] (.mk info children) (by simp only [Folder.find?]))

/-! ## One folder -/

/-- Two results that differ in one notice, which one of them has and the other has not. -/
def Apart {α : Type} (n : Notice) (x y : Work × α) : Prop :=
  ∃ (ns : List Notice) (w : Work), x.1 = w.after (ns ++ [n]) ∧ y.1 = w.after ns ∧ x.2 = y.2

/-- Why a key with slashes did nothing. -/
def unknownText (source : Path) (metaName key : String) : String :=
  source.text ++ "/" ++ metaName ++ ": cannot hoist '" ++ key ++ "', no such chapter"

/-- One file has a key between others, and the other file has not. -/
structure Dropped (before after : List (String × Override)) (key : String) (o : Override)
    (long short : OverrideFile) : Prop where
  warnings : long.warnings = short.warnings
  entries : long.entries = before ++ (key, o) :: after
  rest : short.entries = before ++ after
  applies : Override.applies key o = true
  slash : '/' ∈ key.toList

theorem Draft.key_unknown {path key : String} {held : List (String × Item)} {d : Draft} {o : Override}
    (ha : Override.applies key o = true) (hs : '/' ∈ key.toList) (hk : key ∉ held.map (·.1))
    (hl : (hoistKey key).1 ∉ (d.sight (hoistKey key).2).homes) :
    d.key path metaName held key o =
      { d with work := d.work.warn (unknownText d.info.source metaName key) } := by
  rw [Override.applies, Bool.and_eq_true, Bool.not_eq_true', Bool.not_eq_true'] at ha
  unfold Draft.key
  rw [ha.1, ha.2]
  simp only [Bool.false_eq_true, if_false]
  rw [show (held.filter (·.1 == key)).map (·.2) = [] from named_eq_nil.mpr hk]
  simp only [List.contains_iff_mem, hs, if_true]
  have hnone : detach (hoistKey key).2 (hoistKey key).1 (.mk d.info d.children) = none := by
    rw [Option.eq_none_iff_forall_not_mem]
    intro f hf
    refine hl ?_
    rw [show (d.sight (hoistKey key).2).homes = _ from Draft.homes_eq _ _,
      (Folder.detach_eq_some.mp hf).homes_perm.mem_iff]
    exact List.mem_cons_self
  unfold Draft.hoist
  dsimp only
  rw [hnone]
  rfl

variable {before after : List (String × Override)} {key : String} {o : Override}
  {file₁ file₂ : OverrideFile}

theorem arrangeBy_dropped (hd : Dropped before after key o file₁ file₂)
    (hk : key ∉ (available info children).map (·.1))
    (hl : (hoistKey key).1 ∉ (((Draft.start file₂ (Tree.pathText way) w info children).keys
      (Tree.pathText way) metaName (available info children) before).sight
        (hoistKey key).2).homes) :
    Apart (.warning (unknownText info.source metaName key))
      (arrangeBy file₁ metaName way w info children)
      (arrangeBy file₂ metaName way w info children) := by
  obtain ⟨hwarnings, hentries, hrest, ha, hs⟩ := hd
  set path := Tree.pathText way with hpath
  set held := available info children with hheld
  set d := (Draft.start file₂ path w info children).keys path metaName held before with hd
  have hstart : Draft.start file₁ path w info children = Draft.start file₂ path w info children := by
    unfold Draft.start
    rw [hwarnings]
  have hsource : d.info.source = info.source :=
    congrArg (·.2.1) (Draft.frame_keys path metaName held before (Draft.start file₂ path w info children))
  -- The same draft without its notices, to which either list of notices is put in front.
  let bare : Draft := { d with work := { d.work with notices := [] } }
  have hwithout : Draft.done file₂ metaName path w info children =
      (bare.keys path metaName held after).after d.work.notices := by
    rw [← Draft.keys_after]
    unfold Draft.done
    rw [hrest]
    unfold Draft.keys
    rw [List.foldl_append]
    congr 1
    simp [bare, Draft.after, Work.after]
    rfl
  have hwith : Draft.done file₁ metaName path w info children =
      (bare.keys path metaName held after).after
        (d.work.notices ++ [.warning (unknownText info.source metaName key)]) := by
    rw [← Draft.keys_after]
    unfold Draft.done
    rw [hentries, hstart]
    unfold Draft.keys
    rw [List.foldl_append, List.foldl_cons]
    congr 1
    refine Eq.trans (Draft.key_unknown ha hs hk hl) ?_
    rw [show (List.foldl _ _ before : Draft) = d from rfl, hsource]
    simp [bare, Draft.after, Work.after, Work.warn, Work.remark]
  refine ⟨d.work.notices, (bare.keys path metaName held after).work, ?_, ?_, ?_⟩
  · rw [arrangeBy_eq, ← hpath]
    rw [hwith]
    rfl
  · rw [arrangeBy_eq, ← hpath]
    rw [hwithout]
    rfl
  · rw [arrangeBy_eq, arrangeBy_eq, ← hpath]
    rw [hwith, hwithout]
    rfl

/-! ## The whole tree -/

/-- No chapter of a tree stands at the address of a key when a folder of the tree has its turn. -/
inductive Untaken (rules : Rules) (spot : List String) (key : String) (f : Folder) (w : Work) : Prop
  | absent : f.homes (hoistKey key).2 = [] → Untaken rules spot key f w
  | elsewhere {c : Chapter} {v : List String} : c.id = (hoistKey key).2 → f.homes c.id = [v] →
      w.chapter? c.id = some c → c.folder = none → ¬ Stay.takes rules c.id v c.title spot key →
      Untaken rules spot key f w

section Keys

variable {file : OverrideFile} {entries : List (String × Override)} {path id : String}

theorem homes_nowhere (h : (Folder.mk info children).homes id = []) :
    (((Draft.start file path w info children).keys path metaName (available info children)
      entries).sight id).homes = [] := by
  have hstart : ((Draft.start file path w info children).sight id).homes = [] := by
    rw [start_sight]
    exact h
  rw [Draft.sight_keys_of_not_concerns]
  · exact hstart
  · rintro e - ⟨-, hmem | ⟨v, hv, -⟩⟩
    · have hcount := (Folder.sites_eq_nil.mp h).1
      exact List.count_eq_zero.mp hcount (mem_available_chapter.mp hmem).2
    · rw [hstart] at hv
      cases hv

theorem homes_here (hn : (entries.map (·.1)).Nodup) (ht : (Folder.mk info children).Tidy)
    (h : (Folder.mk info children).homes id = [[]]) :
    (((Draft.start file path w info children).keys path metaName (available info children)
      entries).sight id).homes = [[]] := by
  have hstart : ((Draft.start file path w info children).sight id).homes = [[]] := by
    rw [start_sight]
    exact h
  rw [Draft.sight_keys_here hn ht hstart
    ((count_named info children id).trans (Folder.sites_eq_here.mp h).1)
    fun key hk => (mem_available_chapter.mp hk).1]
  split <;> exact hstart

/-- A chapter further down stays at its place, or comes up to the folder. -/
theorem homes_inside {v : List String} (hn : (entries.map (·.1)).Nodup)
    (ht : (Folder.mk info children).Tidy) (hp : (Folder.mk info children).Plain)
    (hid : '/' ∉ id.toList) (hv : v ≠ []) (h : (Folder.mk info children).homes id = [v])
    (hl : ∀ u ∈ Folder.listingsOf id children, u = v) :
    let homes := (((Draft.start file path w info children).keys path metaName
      (available info children) entries).sight id).homes
    homes = [v] ∨ homes = [[]] := by
  intro homes
  have hstart : ((Draft.start file path w info children).sight id).homes = [v] := by
    rw [start_sight]
    exact h
  obtain ⟨segment, rest, rfl⟩ := List.exists_cons_of_ne_nil hv
  have hnot : id ∉ info.chapters := List.count_eq_zero.mp (Folder.sites_eq_inside.mp h).1
  have hsight : homes = Sight.homes _ := congrArg Sight.homes
    (Draft.sight_keys_inside hn ht hv hid hstart (by rw [start_sight]; exact hl)
      (available_names ht hp) fun key hk => hnot (mem_available_chapter.mp hk).2)
  rw [hsight]
  split
  · exact Or.inr rfl
  · exact Or.inl hstart

end Keys

/-- When the folders inside are arranged, the chapter of a dead key does not stand at its address,
and no key before the dead one brings it there. -/
theorem untaken_here (hn : (before.map (·.1)).Nodup) (hslash : '/' ∈ key.toList)
    (ht : (Folder.mk info children).Tidy) (hp : Every Plain (.mk info children))
    (hs : (arrangeAll disk metaName way w children).1.stop = none)
    (hu : Untaken (rules disk metaName (.mk info children)) [] key (.mk info children) w) :
    let a := arrangeAll disk metaName way w children
    (hoistKey key).1 ∉ (((Draft.start file₂ (Tree.pathText way) a.1 info a.2).keys
      (Tree.pathText way) metaName (available info a.2) before).sight (hoistKey key).2).homes := by
  intro a
  have hway := (address_hoistKey hslash).1
  have htidy := arrangeAll_tidy ht hs
  have hplain : (Folder.mk info a.2).Plain := hp.here
  cases hu with
  | absent h =>
    obtain ⟨hcount, hnil⟩ := Folder.sites_eq_nil.mp h
    obtain ⟨h1, -, -⟩ := arrangeAll_nowhere (fun b _ v w => arrange_nowhere) hnil hs
    rw [homes_nowhere (Folder.sites_eq_nil.mpr ⟨hcount, h1⟩)]
    exact List.not_mem_nil
  | @elsewhere c v hid hhomes hc hf htakes =>
    rw [← hid]
    cases v with
    | nil =>
      obtain ⟨hcount, hnil⟩ := Folder.sites_eq_here.mp hhomes
      obtain ⟨h1, -, -⟩ := arrangeAll_nowhere (fun b _ v w => arrange_nowhere) hnil hs
      rw [homes_here hn htidy (Folder.sites_eq_here.mpr ⟨hcount, h1⟩), List.mem_singleton]
      exact hway
    | cons segment rest =>
      obtain ⟨hcount, hinside⟩ := Folder.sites_eq_inside.mp hhomes
      have hcid : '/' ∉ c.id.toList := hid ▸ hoistKey_id key
      obtain ⟨b, hb, r, hv, hstands⟩ := arrangeAll_stands
        (fun b hb here w r => arrange_stands hcid hf (ht.child hb) (hp.child hb)) hinside hc hs
      obtain ⟨rfl, rfl⟩ := List.cons.inj hv
      rw [Stay.takes_top, rules_inside ht hb] at htakes
      have hlist : ∀ u ∈ Folder.listingsOf c.id a.2,
          u = b.segment :: (Stay.last (rules disk metaName b) c.id rest c.title).way := by
        rw [show Folder.listingsOf c.id a.2 = _ from hstands.listings]
        split <;> simp
      rcases homes_inside hn htidy hplain hcid (List.cons_ne_nil _ _)
        (Folder.sites_eq_inside.mpr ⟨hcount, hstands.homes⟩) hlist with h | h
      · rw [h, List.mem_singleton]
        intro he
        refine htakes ?_
        rw [← he, hid]
        exact (address_hoistKey hslash).2.symm
      · rw [h, List.mem_singleton]
        exact hway

theorem Apart.bind {α β : Type} {n : Notice} {x y : Work × α} (h : Apart n x y)
    (step : α → Work → Work × β)
    (hstep : ∀ a ns w, step a (w.after ns) = ((step a w).1.after ns, (step a w).2)) :
    Apart n (step x.2 x.1) (step y.2 y.1) := by
  obtain ⟨ns, w, h1, h2, h3⟩ := h
  rw [h1, h2, h3, hstep, hstep]
  exact ⟨ns, (step y.2 w).1, rfl, rfl, rfl⟩

theorem arrange_split (c : Folder) (front back : List Folder) :
    arrange disk metaName way w (.mk info (front ++ c :: back)) =
      let first := arrangeAll disk metaName way w front
      let one := arrange disk metaName (way ++ [c.segment]) first.1 c
      let rest := arrangeAll disk metaName way one.1 back
      arrangeHere disk metaName way rest.1 info (first.2 ++ one.2 :: rest.2) := by
  rw [arrange_mk, arrangeAll_append]
  simp only [arrangeAll_cons]

/-- A chapter that a folder inside does not take stands outside of that folder, or further down
in it. -/
theorem untaken_inside {rules : Rules} {spot : List String} {c : Folder} {front back : List Folder}
    {w' : Work}
    (hu : Untaken rules (c.segment :: spot) key (.mk info (front ++ c :: back)) w)
    (hsame : ∀ id, Folder.homesOf id front = [] → w'.chapter? id = w.chapter? id) :
    Untaken (rules.inside c.segment) spot key c w' := by
  cases hu with
  | absent h =>
    obtain ⟨-, hnil⟩ := Folder.sites_eq_nil.mp h
    exact .absent (Folder.sitesOf_eq_nil.mp hnil c (by simp))
  | @elsewhere d v hid hhomes hc hf htakes =>
    by_cases hnone : c.homes d.id = []
    · exact .absent (hid ▸ hnone)
    · have hinside : Folder.homesOf d.id (front ++ c :: back) = [v] := by
        cases v with
        | nil =>
          have hnil := Folder.sitesOf_eq_nil.mp (Folder.sites_eq_here.mp hhomes).2
          exact absurd (hnil c (by simp)) hnone
        | cons segment rest => exact (Folder.sites_eq_inside.mp hhomes).2
      obtain ⟨hfront, r, rfl, hr⟩ := Folder.sitesOf_split_eq_single hnone hinside
      rw [Stay.takes_inside] at htakes
      exact .elsewhere hid hr ((hsame d.id hfront).trans hc) hf htakes

/-- In the turn of the folder that has it, a dead key only gives one more warning. -/
theorem arrange_dropped_here (hd : Dropped before after key o file₁ file₂)
    (ht : (Folder.mk info children).Tidy) (hp : Every Plain (.mk info children))
    (h₁ : fileAt disk₁ metaName info = .ok file₁) (h₂ : fileAt disk₂ metaName info = .ok file₂)
    (hsame : arrangeAll disk₁ metaName way w children = arrangeAll disk₂ metaName way w children)
    (hs : (arrange disk₂ metaName way w (.mk info children)).1.stop = none)
    (hu : Untaken (rules disk₂ metaName (.mk info children)) [] key (.mk info children) w) :
    Apart (.warning (unknownText info.source metaName key))
      (arrange disk₁ metaName way w (.mk info children))
      (arrange disk₂ metaName way w (.mk info children)) := by
  obtain ⟨hsall, file, hfile, he⟩ := arrange_step hs
  obtain rfl : file₂ = file := Except.ok.inj (h₂.symm.trans hfile)
  have hn : (before.map (·.1)).Nodup := by
    have hall := fileAt_nodup h₂
    rw [hd.rest, List.map_append] at hall
    exact hall.of_append_left
  have htidy := arrangeAll_tidy ht hsall
  rw [he, arrange_mk, hsame, arrangeHere_ok hsall h₁]
  refine arrangeBy_dropped hd (fun hk => ?_) (untaken_here hn hd.slash ht hp hsall hu)
  exact available_names htidy hp.here key hk hd.slash

/-- Folders beside one are arranged alike by disks that say the same outside of that one. -/
theorem arrangeAll_beside {c : Folder} {front back cs : List Folder}
    (ht : (Folder.mk info (front ++ c :: back)).Tidy)
    (hsame : ∀ segment v h, segment ≠ c.segment →
      (Folder.mk info (front ++ c :: back)).find? (segment :: v) = some h →
        fileAt disk₁ metaName h.info = fileAt disk₂ metaName h.info)
    (hcs : ∀ d ∈ cs, d ∈ front ++ back) (w : Work) :
    arrangeAll disk₁ metaName way w cs = arrangeAll disk₂ metaName way w cs := by
  have hnames := ht.nodup
  rw [Folder.children_mk, List.map_append, List.map_cons, List.perm_middle.nodup_iff,
    List.nodup_cons, ← List.map_append] at hnames
  refine arrangeAll_congr fun d hd v w => ?_
  have hmem : d ∈ (Folder.mk info (front ++ c :: back)).children := by
    rcases List.mem_append.mp (hcs d hd) with h | h <;> simp [h]
  refine arrange_congr (ht.child hmem) fun u g hu => ?_
  refine hsame d.segment u g (fun he => ?_) ((Folder.find?_inside ht hmem u).trans hu)
  exact hnames.1 (he ▸ List.mem_map_of_mem (hcs d hd))

/-- With a dead key and without it, the tree is arranged to the same tree. One more warning is
given with it. -/
theorem arrange_dropped {spot : List String} {f g : Folder} (hd : Dropped before after key o file₁ file₂)
    (ht : f.Tidy) (hp : Every Plain f) (hg : f.find? spot = some g)
    (h₁ : fileAt disk₁ metaName g.info = .ok file₁) (h₂ : fileAt disk₂ metaName g.info = .ok file₂)
    (hsame : ∀ v h, f.find? v = some h → v ≠ spot →
      fileAt disk₁ metaName h.info = fileAt disk₂ metaName h.info)
    (hs : (arrange disk₂ metaName way w f).1.stop = none)
    (hu : Untaken (rules disk₂ metaName f) spot key f w) :
    Apart (.warning (unknownText g.info.source metaName key)) (arrange disk₁ metaName way w f)
      (arrange disk₂ metaName way w f) := by
  induction spot generalizing f way w with
  | nil =>
    obtain ⟨info, children⟩ := f
    cases hg
    refine arrange_dropped_here hd ht hp h₁ h₂ (arrangeAll_congr fun c hc v w => ?_) hs hu
    exact arrange_congr (ht.child hc) fun u g hu =>
      hsame (c.segment :: u) g ((Folder.find?_inside ht hc u).trans hu) (List.cons_ne_nil _ _)
  | cons segment spot ih =>
    obtain ⟨info, children⟩ := f
    obtain ⟨c, front, back, rfl, rfl, hfront, hgc⟩ := Folder.split_of_find? hg
    have hmem : c ∈ (Folder.mk info (front ++ c :: back)).children := by simp
    obtain ⟨hsall, file, -, -⟩ := arrange_step hs
    rw [arrangeAll_append] at hsall
    obtain ⟨hone, -⟩ := arrangeAll_step hsall
    have hbelow : Apart _ (arrange disk₁ metaName (way ++ [c.segment]) _ c)
        (arrange disk₂ metaName (way ++ [c.segment]) (arrangeAll disk₂ metaName way w front).1 c) := ih
      (ht.child hmem) (hp.child hmem) hgc
      (fun v h hv hne => hsame (c.segment :: v) h ((Folder.find?_inside ht hmem v).trans hv)
        fun he => hne (List.cons.inj he).2)
      hone (by
        rw [← rules_inside ht hmem]
        exact untaken_inside hu fun id hid =>
          (arrangeAll_nowhere (fun b _ v w => arrange_nowhere) hid (arrange_running hone)).2.2)
    have hbeside : ∀ cs : List Folder, (∀ d ∈ cs, d ∈ front ++ back) → ∀ w,
        arrangeAll disk₁ metaName way w cs = arrangeAll disk₂ metaName way w cs :=
      fun cs hcs w => arrangeAll_beside ht (fun segment v h hne hv =>
        hsame (segment :: v) h hv fun he => hne (List.cons.inj he).1) hcs w
    have hhere : ∀ w cs, arrangeHere disk₁ metaName way w info cs =
        arrangeHere disk₂ metaName way w info cs := fun w cs =>
      arrangeHere_congr (hsame [] (.mk info (front ++ c :: back)) (by simp only [Folder.find?])
        (List.cons_ne_nil _ _).symm)
    rw [arrange_split, arrange_split]
    simp only [hbeside front (fun d hd => List.mem_append_left _ hd),
      hbeside back (fun d hd => List.mem_append_right _ hd), hhere]
    refine hbelow.bind (fun d w' =>
      let rest := arrangeAll disk₂ metaName way w' back
      arrangeHere disk₂ metaName way rest.1 info
        ((arrangeAll disk₂ metaName way w front).2 ++ d :: rest.2)) fun d ns w' => ?_
    simp only [arrangeAll_after fun b _ v w => arrange_after b]
    exact arrangeHere_after

end Arrange

end Sourcebook
