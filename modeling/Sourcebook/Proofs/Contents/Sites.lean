-- Where things stand in a tree of folders: the ways to the folders that hold a thing, what
-- holds of every folder, and how a chapter that is taken out further down shows from above.
import Mathlib
import Sourcebook.Contents.Arrange

namespace Sourcebook

/-- Where names are different, a name leads to the one that has it. -/
theorem find?_of_nodup {α β : Type} [DecidableEq β] {name : α → β} {l : List α}
    (h : (l.map name).Nodup) {a : α} (ha : a ∈ l) : l.find? (name · == name a) = some a := by
  induction l with
  | nil => cases ha
  | cons b l ih =>
    rw [List.map_cons, List.nodup_cons] at h
    rcases List.mem_cons.mp ha with rfl | ha
    · simp
    · have hne : name b ≠ name a := fun he => h.1 (he ▸ List.mem_map_of_mem ha)
      rw [List.find?_cons_of_neg (by simpa using hne)]
      exact ih h.2 ha

namespace Folder

/-! ## Induction -/

/-- What holds of a folder as soon as it holds of the folders inside holds of every folder. -/
@[elab_as_elim, induction_eliminator]
theorem induct {P : Folder → Prop}
    (mk : ∀ info children, (∀ c ∈ children, P c) → P (.mk info children)) (f : Folder) : P f :=
  Folder.rec (motive_1 := P) (motive_2 := fun cs => ∀ c ∈ cs, P c) mk
    (fun _ h => nomatch h)
    (fun _ _ hc hrest _ h => (List.mem_cons.mp h).elim (fun e => e ▸ hc) (hrest _)) f

/-- Something holds of a folder and of every folder inside. -/
inductive Every (P : Folder → Prop) : Folder → Prop
  | mk {info : FolderInfo} {children : List Folder} :
      P (.mk info children) → (∀ c ∈ children, Every P c) → Every P (.mk info children)

/-- The folders inside have different names, and names have no slash. -/
def Neat (f : Folder) : Prop :=
  (f.children.map segment).Nodup ∧ ∀ c ∈ f.children, c.segment ≠ "" ∧ '/' ∉ c.segment.toList

def Tidy (f : Folder) : Prop := Every Neat f

mutual

/-- The ways to the folders at which something is counted, each as often as it counts. -/
def sites (n : FolderInfo → Nat) : Folder → List (List String)
  | .mk info children => List.replicate (n info) [] ++ sitesOf n children

def sitesOf (n : FolderInfo → Nat) : List Folder → List (List String)
  | [] => []
  | c :: rest => (sites n c).map (c.segment :: ·) ++ sitesOf n rest

end

/-- The ways to the folders that hold a chapter. -/
def homes (id : String) (f : Folder) : List (List String) := f.sites (·.chapters.count id)

def homesOf (id : String) (cs : List Folder) : List (List String) :=
  sitesOf (·.chapters.count id) cs

/-- The ways to the folders that list a chapter. -/
def listings (id : String) (f : Folder) : List (List String) := f.sites (·.items.count (.chapter id))

def listingsOf (id : String) (cs : List Folder) : List (List String) :=
  sitesOf (·.items.count (.chapter id)) cs

/-! ## Sites -/

@[simp] theorem segment_mk (info : FolderInfo) (children : List Folder) :
    (Folder.mk info children).segment = info.segment := rfl

@[simp] theorem info_mk (info : FolderInfo) (children : List Folder) :
    (Folder.mk info children).info = info := rfl

@[simp] theorem children_mk (info : FolderInfo) (children : List Folder) :
    (Folder.mk info children).children = children := rfl

theorem sites_mk (n : FolderInfo → Nat) (info : FolderInfo) (children : List Folder) :
    sites n (.mk info children) = List.replicate (n info) [] ++ sitesOf n children := by
  simp only [sites]

theorem sitesOf_append (n : FolderInfo → Nat) (cs ds : List Folder) :
    sitesOf n (cs ++ ds) = sitesOf n cs ++ sitesOf n ds := by
  induction cs with
  | nil => simp [sitesOf]
  | cons c cs ih => simp [sitesOf, ih]

theorem mem_sitesOf {n : FolderInfo → Nat} {cs : List Folder} {v : List String} :
    v ∈ sitesOf n cs ↔ ∃ c ∈ cs, ∃ r ∈ sites n c, v = c.segment :: r := by
  induction cs with
  | nil => simp [sitesOf]
  | cons c cs ih =>
    simp only [sitesOf, List.mem_append, List.mem_map, ih, List.exists_mem_cons_iff]
    constructor
    · rintro (⟨r, hr, rfl⟩ | h)
      · exact Or.inl ⟨r, hr, rfl⟩
      · exact Or.inr h
    · rintro (⟨r, hr, rfl⟩ | h)
      · exact Or.inl ⟨r, hr, rfl⟩
      · exact Or.inr h

theorem nil_not_mem_sitesOf (n : FolderInfo → Nat) (cs : List Folder) : [] ∉ sitesOf n cs := by
  intro h
  obtain ⟨c, _, r, _, he⟩ := mem_sitesOf.mp h
  cases he

theorem nil_mem_sites {n : FolderInfo → Nat} {f : Folder} : [] ∈ sites n f ↔ n f.info ≠ 0 := by
  obtain ⟨info, children⟩ := f
  rw [sites_mk, List.mem_append, List.mem_replicate, or_iff_left (nil_not_mem_sitesOf n children)]
  exact and_iff_left rfl

theorem nil_mem_listings {id : String} {f : Folder} :
    [] ∈ f.listings id ↔ .chapter id ∈ f.info.items := by
  rw [listings, nil_mem_sites, ← Nat.pos_iff_ne_zero, List.count_pos_iff]

theorem cons_mem_sites {n : FolderInfo → Nat} {f : Folder} {segment : String} {rest : List String} :
    segment :: rest ∈ sites n f ↔ ∃ c ∈ f.children, c.segment = segment ∧ rest ∈ sites n c := by
  obtain ⟨info, children⟩ := f
  rw [sites_mk, List.mem_append, List.mem_replicate, mem_sitesOf]
  constructor
  · rintro (⟨-, h⟩ | ⟨c, hc, r, hr, he⟩)
    · cases h
    · obtain ⟨rfl, rfl⟩ := List.cons.inj he
      exact ⟨c, hc, rfl, hr⟩
  · rintro ⟨c, hc, rfl, hr⟩
    exact Or.inr ⟨c, hc, rest, hr, rfl⟩

theorem sites_eq_nil {n : FolderInfo → Nat} {info : FolderInfo} {children : List Folder} :
    sites n (.mk info children) = [] ↔ n info = 0 ∧ sitesOf n children = [] := by
  simp [sites_mk]

theorem sitesOf_eq_nil {n : FolderInfo → Nat} {cs : List Folder} :
    sitesOf n cs = [] ↔ ∀ c ∈ cs, sites n c = [] := by
  induction cs with
  | nil => simp [sitesOf]
  | cons c cs ih => simp [sitesOf, ih]

/-- A single site at the folder itself leaves nothing for the folders inside. -/
theorem sites_eq_here {n : FolderInfo → Nat} {info : FolderInfo} {children : List Folder} :
    sites n (.mk info children) = [[]] ↔ n info = 1 ∧ sitesOf n children = [] := by
  rw [sites_mk]
  constructor
  · intro h
    have hout := nil_not_mem_sitesOf n children
    rcases hn : n info with _ | _ | k
    · rw [hn] at h
      simp only [List.replicate_zero, List.nil_append] at h
      rw [h] at hout
      simp at hout
    · rw [hn] at h
      simpa using h
    · rw [hn] at h
      simp [List.replicate_succ] at h
  · rintro ⟨h1, h2⟩
    simp [h1, h2]

/-- A single site further down is a single site of the folders inside. -/
theorem sites_eq_inside {n : FolderInfo → Nat} {info : FolderInfo} {children : List Folder}
    {segment : String} {rest : List String} :
    sites n (.mk info children) = [segment :: rest] ↔
      n info = 0 ∧ sitesOf n children = [segment :: rest] := by
  rw [sites_mk]
  constructor
  · intro h
    rcases hn : n info with _ | k
    · rw [hn] at h
      exact ⟨rfl, by simpa using h⟩
    · rw [hn] at h
      simp [List.replicate_succ] at h
  · rintro ⟨h1, h2⟩
    simp [h1, h2]

/-- The folder of a single site, with nothing in the folders beside it. -/
theorem sitesOf_cons_eq_single {n : FolderInfo → Nat} {c : Folder} {cs : List Folder}
    {v : List String} :
    sitesOf n (c :: cs) = [v] ↔
      (∃ r, v = c.segment :: r ∧ sites n c = [r] ∧ sitesOf n cs = []) ∨
      (sites n c = [] ∧ sitesOf n cs = [v]) := by
  simp only [sitesOf]
  rw [List.append_eq_singleton_iff]
  constructor
  · rintro (⟨h1, h2⟩ | ⟨h1, h2⟩)
    · exact Or.inr ⟨by simpa using h1, h2⟩
    · obtain ⟨r, hr, hv⟩ := List.map_eq_singleton_iff.mp h1
      exact Or.inl ⟨r, hv.symm, hr, h2⟩
  · rintro (⟨r, rfl, hr, h2⟩ | ⟨h1, h2⟩)
    · exact Or.inr ⟨by simp [hr], h2⟩
    · exact Or.inl ⟨by simp [h1], h2⟩

/-- A single site that is in one of the folders is in no other one. -/
theorem sitesOf_split_eq_single {n : FolderInfo → Nat} {c : Folder} {front back : List Folder}
    {v : List String} (hc : c.sites n ≠ []) (h : sitesOf n (front ++ c :: back) = [v]) :
    sitesOf n front = [] ∧ ∃ r, v = c.segment :: r ∧ c.sites n = [r] := by
  have hmap : (c.sites n).map (c.segment :: ·) ≠ [] := by simpa using hc
  rw [sitesOf_append, sitesOf] at h
  rcases List.append_eq_singleton_iff.mp h with ⟨h1, h2⟩ | ⟨-, h2⟩
  · rcases List.append_eq_singleton_iff.mp h2 with ⟨h3, -⟩ | ⟨h3, -⟩
    · exact absurd h3 hmap
    · obtain ⟨r, hr, hv⟩ := List.map_eq_singleton_iff.mp h3
      exact ⟨h1, r, hv.symm, hr⟩
  · exact absurd (List.append_eq_nil_iff.mp h2).1 hmap

/-- One more site in a folder inside is one more site of the folder around. -/
theorem sites_inside_perm {n : FolderInfo → Nat} {info : FolderInfo} {before after : List Folder}
    {c d : Folder} {way : List String} (hs : d.segment = c.segment)
    (h : (d.sites n).Perm (way :: c.sites n)) :
    ((Folder.mk info (before ++ d :: after)).sites n).Perm
      ((c.segment :: way) :: (Folder.mk info (before ++ c :: after)).sites n) := by
  simp only [sites_mk, sitesOf_append, sitesOf, hs]
  have hmap := h.map (c.segment :: ·)
  rw [List.map_cons] at hmap
  have hfront := (hmap.append_right (sitesOf n after)).append_left
    (List.replicate (n info) [] ++ sitesOf n before)
  simpa only [List.append_assoc, List.cons_append, List.append_eq] using
    hfront.trans List.perm_middle

/-! ## Every folder -/

theorem Every.here {P : Folder → Prop} {f : Folder} (h : Every P f) : P f := by
  cases h with
  | mk h _ => exact h

theorem Every.child {P : Folder → Prop} {f c : Folder} (h : Every P f) (hc : c ∈ f.children) :
    Every P c := by
  cases h with
  | mk _ h => exact h c hc

theorem every_of_sites {n : FolderInfo → Nat} {f : Folder} (h : f.sites n = []) :
    Every (fun f => n f.info = 0) f := by
  induction f with
  | mk info children ih =>
    obtain ⟨h1, h2⟩ := sites_eq_nil.mp h
    exact .mk h1 fun c hc => ih c hc (sitesOf_eq_nil.mp h2 c hc)

theorem every_of_all {P : Folder → Prop} (h : ∀ f, P f) (f : Folder) : Every P f := by
  induction f with
  | mk info children ih => exact .mk (h _) ih

theorem Every.imp {P Q : Folder → Prop} (hi : ∀ f, P f → Q f) {f : Folder} (h : Every P f) :
    Every Q f := by
  induction h with
  | mk h _ ih => exact .mk (hi _ h) ih

theorem mem_nodesOf {way : List String} {cs : List Folder} {n : List String × Folder} :
    n ∈ nodesOf way cs ↔ ∃ c ∈ cs, n ∈ nodes (way ++ [c.segment]) c := by
  induction cs with
  | nil => simp [nodesOf]
  | cons c cs ih => simp [nodesOf, ih]

theorem child?_eq_some {f c : Folder} {segment : String} (h : f.child? segment = some c) :
    c ∈ f.children ∧ c.segment = segment := by
  unfold child? at h
  exact ⟨List.mem_of_find?_eq_some h, by simpa using List.find?_some h⟩

theorem mem_names {f : Folder} {segment : String} :
    segment ∈ f.children.map Folder.segment ↔ (f.child? segment).isSome = true := by
  unfold child?
  rw [List.find?_isSome, List.mem_map]
  simp only [beq_iff_eq]

theorem mem_names_of_child? {f c : Folder} {segment : String} (h : f.child? segment = some c) :
    segment ∈ f.children.map Folder.segment :=
  List.mem_map.mpr ⟨c, child?_eq_some h⟩

/-- A way that leads to a folder goes through one of the folders inside. -/
theorem exists_of_find? {f g : Folder} {segment : String} {rest : List String}
    (h : f.find? (segment :: rest) = some g) :
    ∃ c ∈ f.children, c.segment = segment ∧ c.find? rest = some g := by
  obtain ⟨c, hc, hg⟩ := Option.bind_eq_some_iff.mp h
  obtain ⟨hmem, hs⟩ := child?_eq_some hc
  exact ⟨c, hmem, hs, hg⟩

/-- What holds of every folder holds of all that a walk over the tree meets. -/
theorem every_iff {P : Folder → Prop} {way : List String} {f : Folder} :
    Every P f ↔ ∀ n ∈ f.nodes way, P n.2 := by
  induction f generalizing way with
  | mk info children ih =>
    simp only [nodes, List.mem_cons, mem_nodesOf, forall_eq_or_imp]
    constructor
    · intro h
      refine ⟨h.here, ?_⟩
      rintro n ⟨c, hc, hn⟩
      exact (ih c hc).mp (h.child hc) n hn
    · rintro ⟨h1, h2⟩
      exact .mk h1 fun c hc => (ih c hc).mpr fun n hn => h2 n ⟨c, hc, hn⟩

theorem Neat.of_segments {i j : FolderInfo} {cs ds : List Folder} (h : (Folder.mk i cs).Neat)
    (hs : ds.map segment = cs.map segment) : (Folder.mk j ds).Neat := by
  refine ⟨by rw [children_mk, hs]; exact h.1, fun d hd => ?_⟩
  have hmem : d.segment ∈ cs.map segment := hs ▸ List.mem_map_of_mem hd
  obtain ⟨c, hc, he⟩ := List.mem_map.mp hmem
  exact he ▸ h.2 c hc

theorem Tidy.nodup {f : Folder} (h : f.Tidy) : (f.children.map segment).Nodup := h.here.1

theorem Tidy.name {f c : Folder} (h : f.Tidy) (hc : c ∈ f.children) :
    c.segment ≠ "" ∧ '/' ∉ c.segment.toList := h.here.2 c hc

theorem Tidy.child {f c : Folder} (h : f.Tidy) (hc : c ∈ f.children) : c.Tidy := Every.child h hc

theorem Tidy.change_info {info : FolderInfo} {children : List Folder}
    (h : (Folder.mk info children).Tidy) (other : FolderInfo) : (Folder.mk other children).Tidy :=
  .mk h.here fun _ hc => h.child hc

/-- The ways in a tidy folder are made of names. -/
theorem Tidy.way {f : Folder} (h : f.Tidy) {n : FolderInfo → Nat} {way : List String}
    (hw : way ∈ f.sites n) : ∀ s ∈ way, s ≠ "" ∧ '/' ∉ s.toList := by
  induction f generalizing way with
  | mk info children ih =>
    rw [sites_mk, List.mem_append, mem_sitesOf] at hw
    rcases hw with hw | ⟨c, hc, rest, hrest, rfl⟩
    · rw [List.eq_of_mem_replicate hw]
      simp
    · intro s hs
      rcases List.mem_cons.mp hs with rfl | hs
      · exact h.name hc
      · exact ih c hc (h.child hc) hrest s hs

/-- In a tidy folder a name leads to the one folder that has it. -/
theorem find?_segment {cs : List Folder} (h : (cs.map segment).Nodup) {c : Folder} (hc : c ∈ cs) :
    cs.find? (·.segment == c.segment) = some c :=
  find?_of_nodup h hc

theorem find?_inside {f c : Folder} (hf : f.Tidy) (hc : c ∈ f.children) (rest : List String) :
    f.find? (c.segment :: rest) = c.find? rest := by
  have hchild : f.child? c.segment = some c := find?_segment hf.nodup hc
  rw [find?, hchild]
  rfl

/-- A site of a tidy folder is the way to a folder that counts. -/
theorem mem_sites_iff {f : Folder} (hf : f.Tidy) {n : FolderInfo → Nat} {way : List String} :
    way ∈ f.sites n ↔ ∃ g, f.find? way = some g ∧ n g.info ≠ 0 := by
  induction way generalizing f with
  | nil =>
    obtain ⟨info, children⟩ := f
    simp only [sites_mk, List.mem_append, List.mem_replicate, nil_not_mem_sitesOf, or_false,
      and_true, find?, Option.some.injEq, exists_eq_left', info_mk]
  | cons segment way ih =>
    obtain ⟨info, children⟩ := f
    rw [sites_mk, List.mem_append, mem_sitesOf]
    constructor
    · rintro (h | ⟨c, hc, r, hr, he⟩)
      · cases List.eq_of_mem_replicate h
      · obtain ⟨rfl, rfl⟩ := List.cons.inj he
        obtain ⟨g, hg, hn⟩ := (ih (hf.child hc)).mp hr
        exact ⟨g, (find?_inside hf hc way).trans hg, hn⟩
    · rintro ⟨g, hg, hn⟩
      obtain ⟨c, hmem, rfl, hfind⟩ := exists_of_find? hg
      exact Or.inr ⟨c, hmem, way, (ih (hf.child hmem)).mpr ⟨g, hfind, hn⟩, rfl⟩

theorem mem_sites_child {f c : Folder} (hf : f.Tidy) (hc : c ∈ f.children) {n : FolderInfo → Nat}
    {way : List String} : c.segment :: way ∈ f.sites n ↔ way ∈ c.sites n := by
  rw [mem_sites_iff hf, mem_sites_iff (hf.child hc), find?_inside hf hc]

/-- What stands only where another thing stands does so in every folder. -/
theorem every_subset {f : Folder} (hf : f.Tidy) {n m : FolderInfo → Nat}
    (h : ∀ v ∈ f.sites n, v ∈ f.sites m) : Every (fun g => ∀ v ∈ g.sites n, v ∈ g.sites m) f := by
  induction f with
  | mk info children ih =>
    refine .mk h fun c hc => ih c hc (hf.child hc) fun v hv => ?_
    exact (mem_sites_child hf hc).mp (h _ ((mem_sites_child hf hc).mpr hv))

theorem mem_nodes_of_find? {f g : Folder} {v : List String} (h : f.find? v = some g)
    (way : List String) : (way ++ v, g) ∈ f.nodes way := by
  induction v generalizing f way with
  | nil =>
    obtain ⟨info, children⟩ := f
    simp only [find?, Option.some.injEq] at h
    simp [nodes, h]
  | cons segment v ih =>
    obtain ⟨info, children⟩ := f
    obtain ⟨c, hmem, rfl, hg⟩ := exists_of_find? h
    have hin := ih hg (way ++ [c.segment])
    rw [List.append_assoc] at hin
    rw [nodes, List.mem_cons, mem_nodesOf]
    exact Or.inr ⟨c, hmem, hin⟩

/-- A way leads to the folder that a walk over a tidy tree meets on it. -/
theorem find?_of_mem_nodes {f : Folder} (hf : f.Tidy) {way : List String}
    {n : List String × Folder} (h : n ∈ f.nodes way) :
    ∃ v, n.1 = way ++ v ∧ f.find? v = some n.2 := by
  induction f generalizing way with
  | mk info children ih =>
    rw [nodes, List.mem_cons, mem_nodesOf] at h
    rcases h with rfl | ⟨c, hc, hn⟩
    · exact ⟨[], by simp, by simp only [find?]⟩
    · obtain ⟨v, hv, hfind⟩ := ih c hc (hf.child hc) hn
      exact ⟨c.segment :: v, by simp [hv], (find?_inside hf hc v).trans hfind⟩

theorem find?_append (f : Folder) (v w : List String) :
    f.find? (v ++ w) = (f.find? v).bind (find? w) := by
  induction v generalizing f with
  | nil => rfl
  | cons segment v ih =>
    rw [List.cons_append, find?, find?, Option.bind_assoc]
    exact congrArg _ (funext ih)

/-- What is so everywhere in a tree is so everywhere in a folder of it. -/
theorem Every.find? {P : Folder → Prop} {f g : Folder} (h : Every P f) {way : List String}
    (hg : f.find? way = some g) : Every P g := by
  induction way generalizing f with
  | nil =>
    cases hg
    exact h
  | cons segment way ih =>
    obtain ⟨c, hc, -, hfind⟩ := exists_of_find? hg
    exact ih (h.child hc) hfind

/-- A site of a folder is a site of the tree that it is found in. -/
theorem mem_sites_find? {f g : Folder} (hf : f.Tidy) {v : List String} (hg : f.find? v = some g)
    {n : FolderInfo → Nat} {way : List String} : v ++ way ∈ f.sites n ↔ way ∈ g.sites n := by
  rw [mem_sites_iff hf, mem_sites_iff (hf.find? hg), find?_append, hg, Option.bind_some]

/-- A single site of a tree, as the folder sees it that it is in. -/
theorem sites_find? {f g : Folder} (hf : f.Tidy) {v : List String} (hg : f.find? v = some g)
    {n : FolderInfo → Nat} {way : List String} (h : f.sites n = [v ++ way]) : g.sites n = [way] := by
  induction v generalizing f with
  | nil =>
    cases hg
    exact h
  | cons segment v ih =>
    obtain ⟨info, children⟩ := f
    obtain ⟨c, hmem, rfl, hfind⟩ := exists_of_find? hg
    have hsite : v ++ way ∈ c.sites n :=
      (mem_sites_child hf hmem).mp (h ▸ List.mem_singleton_self _)
    obtain ⟨before, after, he⟩ := List.append_of_mem hmem
    have hinside := (sites_eq_inside.mp h).2
    rw [show children = _ from he] at hinside
    obtain ⟨-, r, hr, hsites⟩ := sitesOf_split_eq_single (List.ne_nil_of_mem hsite) hinside
    obtain rfl : v ++ way = r := (List.cons.inj hr).2
    exact ih (hf.child hmem) hfind hsites

/-- What holds of every folder holds of all that are found. -/
theorem every_iff_find? {P : Folder → Prop} {f : Folder} (hf : f.Tidy) :
    Every P f ↔ ∀ v g, f.find? v = some g → P g := by
  constructor
  · exact fun h v g hg => (h.find? hg).here
  · intro h
    refine (@every_iff P [] f).mpr fun n hn => ?_
    obtain ⟨v, -, hv⟩ := find?_of_mem_nodes hf hn
    exact h v n.2 hv

theorem find?_one (f : Folder) (segment : String) : f.find? [segment] = f.child? segment := by
  rw [find?]
  exact Option.bind_fun_some (f.child? segment)

theorem find?_snoc (f : Folder) (v : List String) (segment : String) :
    f.find? (v ++ [segment]) = (f.find? v).bind (child? · segment) := by
  rw [find?_append]
  exact congrArg _ (funext fun g => find?_one g segment)

/-- A way that leads to a folder leads to the one around it. -/
theorem exists_of_find?_snoc {f c : Folder} {v : List String} {segment : String}
    (h : f.find? (v ++ [segment]) = some c) :
    ∃ a, f.find? v = some a ∧ c ∈ a.children ∧ c.segment = segment := by
  rw [find?_snoc] at h
  obtain ⟨a, ha, hc⟩ := Option.bind_eq_some_iff.mp h
  exact ⟨a, ha, child?_eq_some hc⟩

/-- Where the same folders are found, a folder has the same names inside. -/
theorem names_perm {f g a b : Folder} {v : List String} (hf : f.Tidy) (hg : g.Tidy)
    (h : ∀ v, (f.find? v).map (·.info.source) = (g.find? v).map (·.info.source))
    (ha : f.find? v = some a) (hb : g.find? v = some b) :
    (a.children.map segment).Perm (b.children.map segment) := by
  have hmem : ∀ {e c : Folder}, e.find? v = some c → ∀ s,
      s ∈ c.children.map segment ↔ ((e.find? (v ++ [s])).map (·.info.source)).isSome = true := by
    intro e c hc s
    rw [find?_snoc, hc, Option.bind_some, Option.isSome_map]
    exact mem_names
  refine (List.perm_ext_iff_of_nodup (hf.find? ha).here.1 (hg.find? hb).here.1).mpr fun s => ?_
  rw [hmem ha, hmem hb, h]

end Folder

end Sourcebook
