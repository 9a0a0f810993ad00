-- The table of contents as a list of what it mentions, and how often it mentions an item: as
-- often as the item is listed in folders that no folder on the way hides.
import Mathlib
import Sourcebook.Contents.Outline
import Sourcebook.Proofs.Contents.Lists

namespace Sourcebook

open Folder (Every Tidy)

/-- A folder on the way is hidden by the folder around it. -/
def Rules.hide (rules : Rules) : List String → Bool
  | [] => false
  | segment :: rest => Override.hides (rules []) segment || (rules.inside segment).hide rest

namespace Outline

/-- What the table of contents mentions: an item of the folder at the end of a way, and the label
that a folder is shown with. -/
structure Mention where
  way : List String
  item : Item
  label : String

mutual

/-- What a folder brings into the table of contents. -/
def mentions (way : List String) : Folder → List Mention
  | .mk info children =>
    let inside := mentionsOf way children
    info.items.flatMap fun
      | .folder segment =>
        match children.find? (·.segment == segment) with
        | none => []
        | some c =>
          if c.isEmpty then []
          else ⟨way, .folder segment, c.info.label⟩ :: (inside.lookup segment).getD []
      | item => [⟨way, item, ""⟩]

def mentionsOf (way : List String) : List Folder → List (String × List Mention)
  | [] => []
  | c :: rest => (c.segment, mentions (way ++ [c.segment]) c) :: mentionsOf way rest

end

/-- The entries of a mention. -/
def Mention.entries (p : Places) (m : Mention) : List OutlineEntry :=
  match m.item with
  | .folder segment =>
    [if m.way.length = 0 then .heading ("## " ++ m.label)
      else linkLine m.way.length m.label (p.folderLink (m.way ++ [segment]))]
  | item => ofItem p m.way m.way.length [] [] item

/-! ## The entries are those of the mentions -/

/-- What is kept for each folder is found under its name. -/
theorem lookup_segment {α : Type} (g : Folder → α) (segment : String) (cs : List Folder) :
    (cs.map fun c => (c.segment, g c)).lookup segment =
      (cs.find? (·.segment == segment)).map g := by
  induction cs with
  | nil => rfl
  | cons c cs ih =>
    rw [List.map_cons, List.lookup_cons]
    by_cases hc : c.segment = segment
    · simp [hc]
    · have hne : (segment == c.segment) = false := by simpa using Ne.symm hc
      rw [hne, List.find?_cons_of_neg (by simpa using hc)]
      exact ih

theorem mentionsOf_eq (way : List String) (cs : List Folder) :
    mentionsOf way cs = cs.map fun c => (c.segment, mentions (way ++ [c.segment]) c) := by
  induction cs with
  | nil => rfl
  | cons c cs ih => rw [mentionsOf, ih, List.map_cons]

theorem ofFolders_eq (p : Places) (way : List String) (depth : Nat) (cs : List Folder) :
    ofFolders p way depth cs = cs.map fun c => (c.segment, ofFolder p (way ++ [c.segment]) depth c) := by
  induction cs with
  | nil => rfl
  | cons c cs ih => rw [ofFolders, ih, List.map_cons]

/-- The table of contents consists of the entries of its mentions, in their order. -/
theorem ofFolder_eq (p : Places) (way : List String) (f : Folder) :
    ofFolder p way way.length f = (mentions way f).flatMap (Mention.entries p) := by
  induction f generalizing way with
  | mk info children ih =>
    rw [ofFolder, mentions, mentionsOf_eq, ofFolders_eq]
    simp only [List.flatMap_assoc]
    refine List.flatMap_congr fun item _ => ?_
    cases item with
    | folder segment =>
      simp only [ofItem]
      cases hc : children.find? (·.segment == segment) with
      | none => rfl
      | some c =>
        dsimp only
        split
        · rfl
        · have hin := ih c (List.mem_of_find?_eq_some hc) (way ++ [c.segment])
          rw [List.length_append, List.length_singleton] at hin
          rw [lookup_segment, lookup_segment, hc, List.flatMap_cons]
          simp only [Option.map_some, Option.getD_some, hin]
          rfl
    | chapter id => simp [ofItem, Mention.entries]
    | page page => simp [ofItem, Mention.entries]
    | separator title => simp [ofItem, Mention.entries]

/-- A chapter is linked by one line. -/
theorem Mention.entries_chapter {p : Places} {m : Mention} {id : String} {c : Chapter}
    (hm : m.item = .chapter id) (hc : p.chapters.find? (·.id == id) = some c) :
    m.entries p = [linkLine m.way.length c.title (p.chapterLink c)] := by
  simp only [entries, hm, ofItem, hc]

/-- A page is linked by one line, whatever its title has become. -/
theorem Mention.entries_page {p : Places} {m : Mention} {page : ReferencePage}
    (hm : m.item.isPage page.key = true) :
    ∃ title, m.entries p = [linkLine m.way.length title (p.pageLink page)] := by
  cases hi : m.item with
  | page other =>
    rw [hi] at hm
    have hpath : other.path = page.path := congrArg Prod.snd (beq_iff_eq.mp hm)
    refine ⟨other.title, ?_⟩
    simp only [entries, hi, ofItem, Places.pageLink, hpath]
  | folder segment =>
    rw [hi] at hm
    cases hm
  | chapter id =>
    rw [hi] at hm
    cases hm
  | separator title =>
    rw [hi] at hm
    cases hm

/-! ## How often an item is mentioned -/

/-- How often an item brings the mentions of a folder inside. -/
def weight (children : List Folder) (n : Folder → Nat) : Item → Nat
  | .folder segment =>
    ((children.find? (·.segment == segment)).map fun c => if c.isEmpty then 0 else n c).getD 0
  | _ => 0

/-- Among folders with different names, one alone may count. -/
theorem sum_only {children : List Folder} (h : (children.map Folder.segment).Nodup) {c : Folder}
    (hc : c ∈ children) {k : Folder → Nat}
    (hk : ∀ d ∈ children, d.segment ≠ c.segment → k d = 0) : (children.map k).sum = k c := by
  obtain ⟨before, after, rfl⟩ := List.append_of_mem hc
  rw [List.map_append, List.map_cons, List.perm_middle.nodup_iff, List.nodup_cons,
    ← List.map_append] at h
  have hzero : ∀ ds : List Folder, (∀ d ∈ ds, d ∈ before ++ after) → (ds.map k).sum = 0 := by
    intro ds hds
    rw [List.sum_eq_zero_iff]
    intro x hx
    obtain ⟨d, hd, rfl⟩ := List.mem_map.mp hx
    have hmem := hds d hd
    refine hk d ?_ fun he => h.1 (he ▸ List.mem_map_of_mem hmem)
    rcases List.mem_append.mp hmem with h | h <;> simp [h]
  rw [List.map_append, List.map_cons, List.sum_append, List.sum_cons,
    hzero before fun d hd => List.mem_append_left _ hd,
    hzero after fun d hd => List.mem_append_right _ hd]
  omega

/-- A folder inside counts as often as the folder around lists it. -/
theorem sum_weight {children : List Folder} (h : (children.map Folder.segment).Nodup)
    (n : Folder → Nat) (items : List Item) :
    (items.map (weight children n)).sum =
      (children.map fun c =>
        if c.isEmpty then 0 else items.count (.folder c.segment) * n c).sum := by
  induction items with
  | nil => simp
  | cons item items ih =>
    have hone : weight children n item =
        (children.map fun c =>
          if c.isEmpty then 0 else (if item = .folder c.segment then n c else 0)).sum := by
      cases item with
      | folder segment =>
        simp only [weight]
        cases hc : children.find? (·.segment == segment) with
        | none =>
          have hnone := List.find?_eq_none.mp hc
          rw [Option.map_none, Option.getD_none, eq_comm, List.sum_eq_zero_iff]
          intro x hx
          obtain ⟨d, hd, rfl⟩ := List.mem_map.mp hx
          have hne : segment ≠ d.segment := fun he => hnone d hd (by simp [he])
          simp [hne]
        | some c =>
          have hs : c.segment = segment := by simpa using List.find?_some hc
          rw [sum_only h (List.mem_of_find?_eq_some hc)]
          · simp only [Option.map_some, Option.getD_some, hs, if_true]
          · intro d _ hne
            have hne' : segment ≠ d.segment := fun he => hne (he ▸ hs.symm)
            simp [hne']
      | chapter id => simp [weight]
      | page page => simp [weight]
      | separator title => simp [weight]
    rw [List.map_cons, List.sum_cons, ih, hone, ← List.sum_map_add]
    congr 1
    refine List.map_congr_left fun c _ => ?_
    split
    · rfl
    · rw [List.count_cons, Nat.add_mul, Nat.add_comm]
      congr 1
      by_cases hi : item = .folder c.segment
      · simp [hi]
      · simp [hi]

variable {disk : Disk} {metaName : String} {q : Item → Bool} {n : FolderInfo → Nat}
  {b : List (String × Override) → Bool}

theorem countP_mentions_mk (hq : ∀ segment, q (.folder segment) = false) (way : List String)
    (info : FolderInfo) (children : List Folder) :
    (mentions way (.mk info children)).countP (q ·.item) =
      info.items.countP q + (info.items.map (weight children fun c =>
        (mentions (way ++ [c.segment]) c).countP (q ·.item))).sum := by
  rw [mentions, mentionsOf_eq]
  induction info.items with
  | nil => rfl
  | cons item items ih =>
    rw [List.flatMap_cons, List.countP_append, ih, List.countP_cons, List.map_cons, List.sum_cons]
    cases item with
    | folder segment =>
      simp only [lookup_segment, weight, hq]
      cases hc : children.find? (·.segment == segment) with
      | none => simp
      | some c =>
        have hs : c.segment = segment := by simpa using List.find?_some hc
        by_cases he : c.isEmpty = true
        · simp [he]
        · simp [he, hq, hs]
          omega
    | chapter id => simp [weight, List.countP_cons]; omega
    | page page => simp [weight, List.countP_cons]; omega
    | separator title => simp [weight, List.countP_cons]; omega

theorem countP_sitesOf (p : List String → Bool) (cs : List Folder) :
    (Folder.sitesOf n cs).countP p =
      (cs.map fun c => (c.sites n).countP fun r => p (c.segment :: r)).sum := by
  induction cs with
  | nil => rfl
  | cons c cs ih =>
    rw [Folder.sitesOf, List.countP_append, ih, List.countP_map, List.map_cons, List.sum_cons]
    rfl

/-- How often items of a kind are mentioned. They count where they are listed; what is listed in
folders that are hidden, or is hidden itself, does not show. -/
theorem countP_mentions (hq : ∀ segment, q (.folder segment) = false)
    {f : Folder} (ht : f.Tidy) (hl : Every (Arrange.ListsFolders disk metaName) f)
    (hn : Every (fun g => g.info.items.countP q =
      if b (Arrange.entriesAt disk metaName g.info) then 0 else n g.info) f)
    (he : Every (fun g => g.isEmpty = true → g.sites n = []) f) (way : List String) :
    (mentions way f).countP (q ·.item) = (f.sites n).countP fun v =>
      !(Arrange.rules disk metaName f).hide v && !b (Arrange.rules disk metaName f v) := by
  induction f generalizing way with
  | mk info children ih =>
    rw [countP_mentions_mk hq, sum_weight (show (children.map _).Nodup from ht.nodup), Folder.sites_mk, List.countP_append,
      countP_sitesOf, show info.items.countP q = _ from hn.here]
    congr 1
    · rw [List.countP_replicate, Arrange.rules_nil]
      cases hb : b (Arrange.entriesAt disk metaName info) <;> simp [Rules.hide, hb]
    · congr 1
      refine List.map_congr_left fun c hc => ?_
      set rules := Arrange.rules disk metaName (.mk info children) with hrules
      have hinside : rules.inside c.segment = Arrange.rules disk metaName c :=
        Arrange.rules_inside ht hc
      have hbelow : ∀ r, rules (c.segment :: r) = Arrange.rules disk metaName c r := fun r => by
        rw [← hinside]
        rfl
      by_cases hempty : c.isEmpty = true
      · rw [if_pos hempty, show c.sites n = [] from (he.child hc).here hempty, List.countP_nil]
      · have hcount : info.items.count (.folder c.segment) =
            if Override.hides (rules []) c.segment then 0 else 1 :=
          hl.here c hc (by simpa using hempty)
        rw [if_neg hempty, hcount, ih c hc (ht.child hc) (hl.child hc) (hn.child hc) (he.child hc)]
        simp only [Rules.hide, hinside, hbelow]
        cases Override.hides (rules []) c.segment <;> simp

end Outline

end Sourcebook
