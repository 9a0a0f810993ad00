-- The whole tree is arranged, folders inside before the folder around. A chapter comes to stand
-- where its walk up leads, and it is listed there.
import Mathlib
import Sourcebook.Proofs.Contents.Here

namespace Sourcebook

open Folder (Every Tidy Fades Steady)

namespace Arrange

/-- The override file of a folder. -/
def fileAt (disk : Disk) (metaName : String) (info : FolderInfo) : Except Trouble OverrideFile :=
  OverrideFile.read disk (info.source.join (Path.ofString metaName))

/-- What the override file of a folder says. -/
def entriesAt (disk : Disk) (metaName : String) (info : FolderInfo) : List (String × Override) :=
  match fileAt disk metaName info with
  | .ok file => file.entries
  | .error _ => []

/-- What the override files of a folder, and of the folders inside, say. -/
def rules (disk : Disk) (metaName : String) (f : Folder) : Rules := fun way =>
  ((f.find? way).map fun g => entriesAt disk metaName g.info).getD []

theorem rules_nil (disk : Disk) (metaName : String) (f : Folder) :
    rules disk metaName f [] = entriesAt disk metaName f.info := rfl

theorem rules_inside {disk : Disk} {metaName : String} {f c : Folder} (hf : f.Tidy)
    (hc : c ∈ f.children) : (rules disk metaName f).inside c.segment = rules disk metaName c := by
  funext way
  have hchild : f.child? c.segment = some c := Folder.find?_segment hf.nodup hc
  simp [Rules.inside, rules, Folder.find?, hchild]

variable {disk : Disk} {metaName : String} {way : List String} {w : Work} {info : FolderInfo}
  {children : List Folder}

/-! ## A pass that does not stop -/

theorem arrange_mk : arrange disk metaName way w (.mk info children) =
    arrangeHere disk metaName way (arrangeAll disk metaName way w children).1 info
      (arrangeAll disk metaName way w children).2 := by
  simp only [arrange]

theorem arrangeAll_cons (c : Folder) (cs : List Folder) :
    arrangeAll disk metaName way w (c :: cs) =
      let one := arrange disk metaName (way ++ [c.segment]) w c
      let rest := arrangeAll disk metaName way one.1 cs
      (rest.1, one.2 :: rest.2) := by
  simp only [arrangeAll]

theorem arrangeBy_stop (file : OverrideFile) :
    (arrangeBy file metaName way w info children).1.stop = w.stop := by
  have h := congrArg (·.2.2.2) (Draft.frame_keys (Tree.pathText way) metaName
    (available info children) file.entries (Draft.start file (Tree.pathText way) w info children))
  refine Eq.trans h ?_
  simp only [Draft.start, Draft.frame]
  rw [Work.warns_stop, Work.settles_stop, Work.warns_stop fun text => text]

theorem arrangeHere_ok {file : OverrideFile} (hs : w.stop = none)
    (hfile : fileAt disk metaName info = .ok file) :
    arrangeHere disk metaName way w info children = arrangeBy file metaName way w info children := by
  unfold arrangeHere
  rw [hs, show OverrideFile.read _ _ = _ from hfile]

/-- Where the work has not stopped after a folder, its override file was read. -/
theorem arrangeHere_running
    (h : (arrangeHere disk metaName way w info children).1.stop = none) :
    w.stop = none ∧ ∃ file, fileAt disk metaName info = .ok file ∧
      arrangeHere disk metaName way w info children =
        arrangeBy file metaName way w info children := by
  cases hs : w.stop with
  | some t =>
    unfold arrangeHere at h
    rw [hs] at h
    exact absurd (hs.symm.trans h) (by simp)
  | none =>
    cases hfile : fileAt disk metaName info with
    | error t =>
      unfold arrangeHere at h
      rw [hs, show OverrideFile.read _ _ = _ from hfile] at h
      cases h
    | ok file => exact ⟨rfl, file, rfl, arrangeHere_ok hs hfile⟩

theorem arrangeAll_running (cs : List Folder)
    (hone : ∀ c ∈ cs, ∀ v w, (arrange disk metaName v w c).1.stop = none → w.stop = none)
    (h : (arrangeAll disk metaName way w cs).1.stop = none) : w.stop = none := by
  induction cs generalizing w with
  | nil => simpa [arrangeAll] using h
  | cons c cs ih =>
    rw [arrangeAll_cons] at h
    exact hone c List.mem_cons_self _ _ (ih (fun d hd => hone d (List.mem_cons_of_mem _ hd)) h)

/-- Work that has stopped does not go on. -/
theorem arrange_running {f : Folder} (h : (arrange disk metaName way w f).1.stop = none) :
    w.stop = none := by
  induction f generalizing way w with
  | mk info children ih =>
    rw [arrange_mk] at h
    exact arrangeAll_running children (fun c hc v w => ih c hc) (arrangeHere_running h).1

theorem arrange_step (h : (arrange disk metaName way w (.mk info children)).1.stop = none) :
    (arrangeAll disk metaName way w children).1.stop = none ∧ ∃ file,
      fileAt disk metaName info = .ok file ∧
      arrange disk metaName way w (.mk info children) =
        arrangeBy file metaName way (arrangeAll disk metaName way w children).1 info
          (arrangeAll disk metaName way w children).2 := by
  rw [arrange_mk] at h ⊢
  obtain ⟨hs, file, hfile, he⟩ := arrangeHere_running h
  exact ⟨hs, file, hfile, he⟩

theorem entriesAt_eq {file : OverrideFile} (h : fileAt disk metaName info = .ok file) :
    entriesAt disk metaName info = file.entries := by
  rw [entriesAt, h]

theorem entriesAt_source {i j : FolderInfo} (h : i.source = j.source) :
    entriesAt disk metaName i = entriesAt disk metaName j := by
  unfold entriesAt fileAt
  rw [h]

theorem fileAt_nodup {file : OverrideFile} (h : fileAt disk metaName info = .ok file) :
    (file.entries.map (·.1)).Nodup :=
  OverrideFile.keys_nodup h

theorem arrangeAll_step {c : Folder} {cs : List Folder}
    (h : (arrangeAll disk metaName way w (c :: cs)).1.stop = none) :
    (arrange disk metaName (way ++ [c.segment]) w c).1.stop = none ∧
      (arrangeAll disk metaName way (arrange disk metaName (way ++ [c.segment]) w c).1 cs).1.stop =
        none := by
  rw [arrangeAll_cons] at h
  exact ⟨arrangeAll_running cs (fun c _ v w => arrange_running) h, h⟩

/-- Every override file of a tree can be looked for. -/
def Readable (disk : Disk) (metaName : String) (f : Folder) : Prop :=
  Every (fun g => (fileAt disk metaName g.info).isOk = true) f

theorem arrangeAll_returns {cs : List Folder}
    (hone : ∀ c ∈ cs, ∀ v w, w.stop = none → (arrange disk metaName v w c).1.stop = none)
    (hw : w.stop = none) : (arrangeAll disk metaName way w cs).1.stop = none := by
  induction cs generalizing w with
  | nil => simpa [arrangeAll] using hw
  | cons c cs ih =>
    rw [arrangeAll_cons]
    exact ih (fun d hd => hone d (List.mem_cons_of_mem _ hd)) (hone c List.mem_cons_self _ _ hw)

/-- A tree whose override files can be looked for is arranged to the end. -/
theorem arrange_returns {f : Folder} (hf : Readable disk metaName f) (hw : w.stop = none) :
    (arrange disk metaName way w f).1.stop = none := by
  induction f generalizing way w with
  | mk info children ih =>
    have hall : (arrangeAll disk metaName way w children).1.stop = none :=
      arrangeAll_returns (fun c hc v w h => ih c hc (hf.child hc) h) hw
    have hok := hf.here
    cases hfile : fileAt disk metaName info with
    | error t =>
      rw [Folder.info_mk, hfile] at hok
      cases hok
    | ok file => rw [arrange_mk, arrangeHere_ok hall hfile, arrangeBy_stop, hall]

/-! ## Every folder -/

theorem arrangeBy_info (file : OverrideFile) (metaName : String) (way : List String) (w : Work)
    (info : FolderInfo) (children : List Folder) :
    let r := arrangeBy file metaName way w info children
    r.2.segment = info.segment ∧ r.2.info.source = info.source ∧
      r.2.info.pages.map (fun p => (p.id, p.path)) = info.pages.map fun p => (p.id, p.path) := by
  intro r
  have h := Draft.frame_keys (Tree.pathText way) metaName (available info children) file.entries
    (Draft.start file (Tree.pathText way) w info children)
  exact ⟨congrArg (·.1) h, congrArg (·.2.1) h, congrArg (·.2.2.1) h⟩

theorem arrangeBy_inside_folders (file : OverrideFile) {Q : List Folder → Prop} (hQ : Lasting Q)
    (h : Q children) : Q (arrangeBy file metaName way w info children).2.children :=
  hQ.keys (d := Draft.start file (Tree.pathText way) w info children) h

theorem arrangeBy_segments (file : OverrideFile) :
    (arrangeBy file metaName way w info children).2.children.map Folder.segment =
      children.map Folder.segment :=
  Folder.fades_segments
    (arrangeBy_inside_folders file (lasting_fades children) (Folder.fades_same children))

theorem arrangeHere_segment :
    (arrangeHere disk metaName way w info children).2.segment = info.segment := by
  unfold arrangeHere
  split
  · rfl
  · rfl
  · exact (arrangeBy_info ..).1

theorem arrange_segment (f : Folder) : (arrange disk metaName way w f).2.segment = f.segment := by
  obtain ⟨info, children⟩ := f
  rw [arrange_mk]
  exact arrangeHere_segment

theorem arrangeAll_append (cs ds : List Folder) :
    arrangeAll disk metaName way w (cs ++ ds) =
      let first := arrangeAll disk metaName way w cs
      let rest := arrangeAll disk metaName way first.1 ds
      (rest.1, first.2 ++ rest.2) := by
  induction cs generalizing w with
  | nil => simp [arrangeAll]
  | cons c cs ih => simp only [List.cons_append, arrangeAll_cons, ih]

theorem arrangeAll_segments (cs : List Folder) :
    (arrangeAll disk metaName way w cs).2.map Folder.segment = cs.map Folder.segment := by
  induction cs generalizing w with
  | nil => simp [arrangeAll]
  | cons c cs ih =>
    rw [arrangeAll_cons]
    simp only [List.map_cons, arrange_segment, ih]

theorem arrangeAll_every {P : Folder → Prop} {cs : List Folder}
    (hone : ∀ c ∈ cs, ∀ v w, (arrange disk metaName v w c).1.stop = none →
      P (arrange disk metaName v w c).2)
    (hs : (arrangeAll disk metaName way w cs).1.stop = none) :
    ∀ d ∈ (arrangeAll disk metaName way w cs).2, P d := by
  induction cs generalizing w with
  | nil => simp [arrangeAll]
  | cons c cs ih =>
    obtain ⟨hfirst, hrest⟩ := arrangeAll_step hs
    intro d hd
    rw [arrangeAll_cons] at hd
    rcases List.mem_cons.mp hd with rfl | hd
    · exact hone c List.mem_cons_self _ _ hfirst
    · exact ih (fun b hb => hone b (List.mem_cons_of_mem _ hb)) hrest d hd

/-- What arranging makes of one folder, and what is steady, holds of every folder when all are
arranged. -/
theorem arrange_every {P Q : Folder → Prop} (hP : Steady P)
    (hmade : ∀ {file way w info children arranged}, (file.entries.map (·.1)).Nodup →
      entriesAt disk metaName info = file.entries →
      Q (.mk info children) → arranged.map Folder.segment = children.map Folder.segment →
      P (arrangeBy file metaName way w info arranged).2)
    {f : Folder} (hf : Every Q f) (hs : (arrange disk metaName way w f).1.stop = none) :
    Every P (arrange disk metaName way w f).2 := by
  induction f generalizing way w with
  | mk info children ih =>
    obtain ⟨hsall, file, hfile, he⟩ := arrange_step hs
    have hchildren := arrangeAll_every (fun c hc v w h => ih c hc (hf.child hc) h) hsall
    rw [he]
    refine .mk ?_ (arrangeBy_inside_folders file (lasting_every hP) hchildren)
    exact hmade (fileAt_nodup hfile) (entriesAt_eq hfile) hf.here (arrangeAll_segments children)

theorem arrange_tidy {f : Folder} (hf : f.Tidy)
    (hs : (arrange disk metaName way w f).1.stop = none) : (arrange disk metaName way w f).2.Tidy := by
  refine arrange_every Folder.steady_neat ?_ hf hs
  intro file way w info children arranged _ _ hneat hsegments
  exact arrangeBy_inside_folders file (lasting_neat _) (hneat.of_segments hsegments)

/-- The folders inside of a tidy folder are arranged to those of a tidy folder. -/
theorem arrangeAll_tidy (ht : (Folder.mk info children).Tidy)
    (hs : (arrangeAll disk metaName way w children).1.stop = none) :
    (Folder.mk info (arrangeAll disk metaName way w children).2).Tidy :=
  .mk (ht.here.of_segments (arrangeAll_segments children))
    (arrangeAll_every (fun _ hb _ _ h => arrange_tidy (ht.child hb) h) hs)

/-- Where folders and pages come from does not change. -/
theorem arrangeBy_sites {n : FolderInfo → Nat} (hn : Fixed n) (file : OverrideFile) :
    (arrangeBy file metaName way w info children).2.sites n = (Folder.mk info children).sites n := by
  obtain ⟨-, hsource, hpages⟩ := arrangeBy_info file metaName way w info children
  have hinside : Folder.sitesOf n (arrangeBy file metaName way w info children).2.children = _ :=
    arrangeBy_inside_folders file (lasting_sites hn (Folder.sitesOf n children)) rfl
  generalize (arrangeBy file metaName way w info children).2 = f at hsource hpages hinside ⊢
  obtain ⟨i, cs⟩ := f
  rw [Folder.sites_mk, Folder.sites_mk, hn.same i info hsource hpages]
  exact congrArg _ hinside

theorem arrangeHere_sites {n : FolderInfo → Nat} (hn : Fixed n) :
    (arrangeHere disk metaName way w info children).2.sites n =
      (Folder.mk info children).sites n := by
  unfold arrangeHere
  split
  · rfl
  · rfl
  · exact arrangeBy_sites hn _

theorem arrangeAll_sites {n : FolderInfo → Nat} {cs : List Folder}
    (hone : ∀ c ∈ cs, ∀ v w, (arrange disk metaName v w c).2.sites n = c.sites n) :
    Folder.sitesOf n (arrangeAll disk metaName way w cs).2 = Folder.sitesOf n cs := by
  induction cs generalizing w with
  | nil => simp [arrangeAll]
  | cons c cs ih =>
    rw [arrangeAll_cons]
    simp only [Folder.sitesOf, arrange_segment, hone c List.mem_cons_self,
      ih fun d hd => hone d (List.mem_cons_of_mem _ hd)]

theorem arrange_sites {n : FolderInfo → Nat} (hn : Fixed n) (f : Folder) :
    (arrange disk metaName way w f).2.sites n = f.sites n := by
  induction f generalizing way w with
  | mk info children ih =>
    rw [arrange_mk, arrangeHere_sites hn, Folder.sites_mk, Folder.sites_mk,
      arrangeAll_sites fun c hc v w => ih c hc]

/-- An arranged tree has the folders that it had, and they stand for the same directories. -/
theorem arrange_source {f : Folder} (hf : f.Tidy)
    (hs : (arrange disk metaName way w f).1.stop = none) (v : List String) :
    ((arrange disk metaName way w f).2.find? v).map (·.info.source) =
      (f.find? v).map (·.info.source) := by
  refine Option.ext fun x => ?_
  have hn : Fixed fun i => if i.source = x then 1 else 0 := ⟨fun i j h _ => by rw [h]⟩
  have hiff : v ∈ (arrange disk metaName way w f).2.sites (fun i => if i.source = x then 1 else 0) ↔ _ :=
    Folder.mem_sites_iff (arrange_tidy hf hs)
  rw [arrange_sites hn, Folder.mem_sites_iff hf] at hiff
  simpa [Option.map_eq_some_iff] using hiff.symm

theorem rules_of_sources {f g : Folder}
    (h : ∀ v, (f.find? v).map (·.info.source) = (g.find? v).map (·.info.source)) :
    rules disk metaName f = rules disk metaName g := by
  funext v
  have hv := h v
  unfold rules
  cases hf : f.find? v with
  | none =>
    rw [hf] at hv
    rw [Option.map_eq_none_iff.mp hv.symm]
  | some a =>
    rw [hf] at hv
    obtain ⟨b, hb, hsource⟩ := Option.map_eq_some_iff.mp hv.symm
    rw [hb, Option.map_some, Option.map_some, entriesAt_source hsource]

/-- The folder at the end of a way reads the same override file when the tree is arranged. -/
theorem arrange_rules {f : Folder} (hf : f.Tidy)
    (hs : (arrange disk metaName way w f).1.stop = none) :
    rules disk metaName (arrange disk metaName way w f).2 = rules disk metaName f :=
  rules_of_sources (arrange_source hf hs)

/-! ## Where a chapter comes to stand -/

theorem arrangeAll_nowhere {id : String} {cs : List Folder}
    (hone : ∀ c ∈ cs, ∀ v w, c.homes id = [] → (arrange disk metaName v w c).1.stop = none →
      (arrange disk metaName v w c).2.homes id = [] ∧
      (arrange disk metaName v w c).2.listings id = [] ∧
      (arrange disk metaName v w c).1.chapter? id = w.chapter? id)
    (h : Folder.homesOf id cs = []) (hs : (arrangeAll disk metaName way w cs).1.stop = none) :
    Folder.homesOf id (arrangeAll disk metaName way w cs).2 = [] ∧
    Folder.listingsOf id (arrangeAll disk metaName way w cs).2 = [] ∧
    (arrangeAll disk metaName way w cs).1.chapter? id = w.chapter? id := by
  induction cs generalizing w with
  | nil => simp [arrangeAll, Folder.homesOf, Folder.listingsOf, Folder.sitesOf]
  | cons c cs ih =>
    obtain ⟨hfirst, hrest⟩ := arrangeAll_step hs
    have hnil := Folder.sitesOf_eq_nil.mp h
    obtain ⟨h1, h2, h3⟩ := hone c List.mem_cons_self _ _ (hnil c List.mem_cons_self) hfirst
    obtain ⟨i1, i2, i3⟩ := ih (fun d hd => hone d (List.mem_cons_of_mem _ hd))
      (Folder.sitesOf_eq_nil.mpr fun d hd => hnil d (List.mem_cons_of_mem _ hd)) hrest
    rw [arrangeAll_cons]
    refine ⟨?_, ?_, i3.trans h3⟩
    · exact List.append_eq_nil_iff.mpr ⟨List.map_eq_nil_iff.mpr h1, i1⟩
    · exact List.append_eq_nil_iff.mpr ⟨List.map_eq_nil_iff.mpr h2, i2⟩

/-- A chapter that stands nowhere in a tree stands nowhere in it afterwards, and stays as it is. -/
theorem arrange_nowhere {id : String} {f : Folder} (h : f.homes id = [])
    (hs : (arrange disk metaName way w f).1.stop = none) :
    (arrange disk metaName way w f).2.homes id = [] ∧
    (arrange disk metaName way w f).2.listings id = [] ∧
    (arrange disk metaName way w f).1.chapter? id = w.chapter? id := by
  induction f generalizing way w with
  | mk info children ih =>
    obtain ⟨hsall, file, -, he⟩ := arrange_step hs
    obtain ⟨hcount, hinside⟩ := Folder.sites_eq_nil.mp h
    obtain ⟨h1, h2, h3⟩ := arrangeAll_nowhere (fun c hc v w h hs => ih c hc h hs) hinside hsall
    obtain ⟨i1, i2, i3⟩ := arrangeBy_nowhere file metaName way
      (arrangeAll disk metaName way w children).1 (Folder.sites_eq_nil.mpr ⟨hcount, h1⟩) h2
    rw [he]
    exact ⟨i1, i2, i3.trans h3⟩

theorem arrangeAll_stands {c : Chapter} {cs : List Folder} {v : List String}
    (hone : ∀ d ∈ cs, ∀ here w r, d.homes c.id = [r] → w.chapter? c.id = some c →
      (arrange disk metaName here w d).1.stop = none →
      let a := arrange disk metaName here w d
      Stands (a.2.homes c.id) (a.2.listings c.id) a.1 here c
        (Stay.last (rules disk metaName d) c.id r c.title))
    (h : Folder.homesOf c.id cs = [v]) (hc : w.chapter? c.id = some c)
    (hs : (arrangeAll disk metaName way w cs).1.stop = none) :
    ∃ d ∈ cs, ∃ r, v = d.segment :: r ∧
      let a := arrangeAll disk metaName way w cs
      Stands (Folder.homesOf c.id a.2) (Folder.listingsOf c.id a.2) a.1 way c
        ((Stay.last (rules disk metaName d) c.id r c.title).within d.segment) := by
  induction cs generalizing w with
  | nil => simp [Folder.homesOf, Folder.sitesOf] at h
  | cons d cs ih =>
    obtain ⟨hfirst, hrest⟩ := arrangeAll_step hs
    have hseg : (arrange disk metaName (way ++ [d.segment]) w d).2.segment = d.segment :=
      arrange_segment d
    rw [arrangeAll_cons]
    rcases Folder.sitesOf_cons_eq_single.mp h with ⟨r, rfl, hhome, hnil⟩ | ⟨hnil, hhome⟩
    · have hd := hone d List.mem_cons_self _ _ r hhome hc hfirst
      obtain ⟨i1, i2, i3⟩ := arrangeAll_nowhere (fun b _ v w => arrange_nowhere) hnil hrest
      refine ⟨d, List.mem_cons_self, r, rfl, ?_, ?_, ?_⟩
      · simp only [Folder.homesOf, Folder.sitesOf] at i1 ⊢
        rw [i1, show Folder.sites _ _ = _ from hd.homes, hseg]
        rfl
      · simp only [Folder.listingsOf, Folder.sitesOf] at i2 ⊢
        rw [i2, show Folder.sites _ _ = _ from hd.listings, hseg, Stay.within_hidden]
        split <;> rfl
      · refine i3.trans (hd.chapter.trans ?_)
        simp
    · obtain ⟨h1, h2, h3⟩ := arrange_nowhere hnil hfirst
      obtain ⟨b, hb, r, hv, hstands⟩ := ih (fun b hb => hone b (List.mem_cons_of_mem _ hb)) hhome
        (h3.trans hc) hrest
      refine ⟨b, List.mem_cons_of_mem _ hb, r, hv, ?_, ?_, hstands.chapter⟩
      · simp only [Folder.homesOf, Folder.sitesOf]
        rw [show Folder.sites _ _ = _ from h1]
        exact hstands.homes
      · simp only [Folder.listingsOf, Folder.sitesOf]
        rw [show Folder.sites _ _ = _ from h2]
        exact hstands.listings

/-- When a tree is arranged, a chapter that stands at one place comes to stand where its walk
up leads. -/
theorem arrange_stands {c : Chapter} (hid : '/' ∉ c.id.toList) (hfolder : c.folder = none)
    {f : Folder} {v : List String} (ht : f.Tidy) (hp : Every Folder.Plain f)
    (h : f.homes c.id = [v]) (hc : w.chapter? c.id = some c)
    (hs : (arrange disk metaName way w f).1.stop = none) :
    let a := arrange disk metaName way w f
    Stands (a.2.homes c.id) (a.2.listings c.id) a.1 way c
      (Stay.last (rules disk metaName f) c.id v c.title) := by
  induction f generalizing way w v with
  | mk info children ih =>
    obtain ⟨hsall, file, hfile, he⟩ := arrange_step hs
    have hn := fileAt_nodup hfile
    have htidy := arrangeAll_tidy ht hsall
    have hrules : rules disk metaName (.mk info children) [] = file.entries :=
      entriesAt_eq hfile
    rw [he]
    cases v with
    | nil =>
      obtain ⟨hcount, hnil⟩ := Folder.sites_eq_here.mp h
      obtain ⟨h1, h2, h3⟩ := arrangeAll_nowhere (fun b _ v w => arrange_nowhere) hnil hsall
      exact arrangeBy_here hrules hn htidy (Folder.sites_eq_here.mpr ⟨hcount, h1⟩) h2
        (h3.trans hc) hfolder
    | cons segment rest =>
      obtain ⟨hcount, hinside⟩ := Folder.sites_eq_inside.mp h
      obtain ⟨d, hd, r, hv, hstands⟩ := arrangeAll_stands
        (fun d hd here w r => ih d hd (ht.child hd) (hp.child hd)) hinside hc hsall
      obtain ⟨rfl, rfl⟩ := List.cons.inj hv
      rw [Stay.last_cons, rules_inside ht hd]
      refine arrangeBy_inside hrules hn htidy hp.here hid (by simp) ⟨?_, hstands.2, hstands.3⟩
      exact Folder.sites_eq_inside.mpr ⟨hcount, hstands.homes⟩

end Arrange

end Sourcebook
