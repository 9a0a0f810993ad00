-- The tree as it is kept: one register of the folders by their paths, in which a folder points to
-- those inside by their paths. What is put into the tree goes from pointer to pointer, and folders
-- that are missing on the way are entered. The register is always that of the tree of folders.
import Mathlib
import Sourcebook.Proofs.Contents.Made
import Sourcebook.Proofs.Text.Pieces

namespace Sourcebook

open Folder (Tidy fresh)

/-! ## The register -/

namespace Tree

/-- A folder as it is recorded: its path, what it is in itself, and under the name of every folder
inside the path that leads there. -/
structure Record where
  path : String
  info : FolderInfo
  inside : List (String × String)

/-- The folders by their paths. -/
def Register := String → Option Record

/-- The path of a folder inside the folder of a path. -/
def pathInside (path segment : String) : String :=
  if path = "" then segment else path ++ "/" ++ segment

namespace Register

def put (g : Register) (path : String) (e : Record) : Register := Function.update g path (some e)

/-- Nothing but an empty root. -/
def empty (source : Path) : Register := put (fun _ => none) "" ⟨"", fresh "root" source, []⟩

/-- One step down from the folder of a path: where its pointer leads, or to a new folder that it
points to from then on. -/
def descend (g : Register) (path segment : String) : Register × String :=
  match g path with
  | none => (g, path)
  | some e =>
    match e.inside.lookup segment with
    | some next => (g, next)
    | none =>
      let next := pathInside e.path segment
      let new : Record := ⟨next, fresh segment (e.info.source.join ⟨.none, [segment]⟩), []⟩
      ((g.put next new).put path { e with inside := e.inside ++ [(segment, next)] }, next)

/-- All steps of a way from the root. -/
def walk (g : Register) (way : List String) : Register × String :=
  way.foldl (fun here segment => here.1.descend here.2 segment) (g, "")

/-- Goes down to a folder and changes what it is in itself. -/
def change (h : FolderInfo → FolderInfo) (way : List String) (g : Register) : Register :=
  let (g, path) := g.walk way
  match g path with
  | none => g
  | some e => g.put path { e with info := h e.info }

def add (g : Register) (a : Addition) : Register := g.change a.effect a.way

/-- The register of additions in their order. -/
def made (source : Path) (additions : List Addition) : Register := additions.foldl add (empty source)

end Register

/-! ## Paths and ways -/

/-- The names that a path is made of. -/
def wayOf (path : String) : List String :=
  if path = "" then [] else (Text.splitOn '/' path.toList).map String.ofList

theorem pathText_wayOf (path : String) : pathText (wayOf path) = path := by
  unfold wayOf
  split
  · next h => rw [h]; rfl
  · rw [← String.toList_inj, Arrange.pathText_toList, List.map_map]
    have hid : String.toList ∘ String.ofList = id := funext fun _ => String.toList_ofList
    rw [hid, List.map_id, Text.joinWith_splitOn]

theorem pathText_eq_empty {way : List String} (h : ∀ s ∈ way, s ≠ "" ∧ '/' ∉ s.toList) :
    pathText way = "" ↔ way = [] := by
  refine ⟨fun he => ?_, fun he => by rw [he]; rfl⟩
  cases way with
  | nil => rfl
  | cons s way =>
    have hs : s.toList ≠ [] := fun hnil => (h s List.mem_cons_self).1 (String.toList_eq_nil_iff.mp hnil)
    rw [← String.toList_inj, Arrange.pathText_toList, List.map_cons] at he
    cases way with
    | nil => exact absurd he hs
    | cons t way =>
      rw [List.map_cons, Text.joinWith_cons (List.cons_ne_nil _ _)] at he
      exact absurd (List.append_eq_nil_iff.mp he).1 hs

theorem wayOf_pathText {way : List String} (h : ∀ s ∈ way, s ≠ "" ∧ '/' ∉ s.toList) :
    wayOf (pathText way) = way := by
  unfold wayOf
  by_cases hway : way = []
  · rw [hway]
    rfl
  · rw [if_neg fun he => hway ((pathText_eq_empty h).mp he), Arrange.pathText_toList,
      Text.splitOn_joinWith (by simpa using hway)]
    · rw [List.map_map]
      exact (List.map_congr_left fun _ _ => String.ofList_toList).trans (List.map_id _)
    · intro piece hpiece
      obtain ⟨s, hs, rfl⟩ := List.mem_map.mp hpiece
      exact (h s hs).2

/-- Only one way is written as a path. -/
theorem eq_pathText_iff {way : List String} (h : ∀ s ∈ way, s ≠ "" ∧ '/' ∉ s.toList)
    {path : String} : path = pathText way ↔ wayOf path = way :=
  ⟨fun he => by rw [he, wayOf_pathText h], fun he => by rw [← he, pathText_wayOf]⟩

/-- A slash behind a path keeps its names from those behind it. -/
theorem wayOf_append {path : String} (h : path ≠ "") (rest : String) :
    wayOf (path ++ "/" ++ rest) =
      wayOf path ++ (Text.splitOn '/' rest.toList).map String.ofList := by
  have hlist : (path ++ "/" ++ rest).toList = path.toList ++ '/' :: rest.toList := by simp
  have hne : path ++ "/" ++ rest ≠ "" := by
    intro he
    have hnil := hlist.symm.trans (congrArg String.toList he)
    exact List.cons_ne_nil _ _ (List.append_eq_nil_iff.mp hnil).2
  unfold wayOf
  rw [if_neg hne, if_neg h, hlist, Text.splitOn_append_cons, List.map_append]

theorem pathText_snoc {way : List String} (h : ∀ s ∈ way, s ≠ "" ∧ '/' ∉ s.toList)
    (segment : String) : pathText (way ++ [segment]) = pathInside (pathText way) segment := by
  unfold pathInside
  by_cases hway : way = []
  · rw [hway]
    exact String.intercalate_singleton
  · rw [if_neg fun he => hway ((pathText_eq_empty h).mp he)]
    exact String.toList_inj.mp (by
      rw [Arrange.pathText_toList, List.map_append, List.map_singleton,
        Text.joinWith_snoc (by simpa using hway), String.toList_append, String.toList_append,
        Arrange.pathText_toList]
      simp)

end Tree

/-! ## What is seen of a folder -/

namespace Folder

open Sourcebook.Tree (pathText)

/-- What a folder is in itself, and the names of the folders inside. -/
def face (f : Folder) : FolderInfo × List String := (f.info, f.children.map segment)

/-- The face of the folder at the end of a way. -/
def seen (v : List String) (f : Folder) : Option (FolderInfo × List String) := (f.find? v).map face

/-- Names with one more, unless it is there. -/
def withName (segment : String) (names : List String) : List String :=
  if segment ∈ names then names else names ++ [segment]

/-- The folders on a way, made where they are missing. -/
def grow (way : List String) (f : Folder) : Folder := change (·.withInfo id) way f

variable {g : FolderInfo → FolderInfo}

theorem names_change (hg : ∀ i, (g i).segment = i.segment) (segment : String) (way : List String)
    (f : Folder) : (change (·.withInfo g) (segment :: way) f).children.map Folder.segment =
      withName segment (f.children.map Folder.segment) := by
  unfold withName
  rcases change_cons (g := g) segment way f with ⟨before, c, after, hf, hc, he⟩ | ⟨hnone, he⟩
  · rw [he hg, hf, if_pos (by simp [hc])]
    simp [change_segment hg]
  · have hnot : segment ∉ f.children.map Folder.segment := by
      intro hmem
      obtain ⟨c, hc, hs⟩ := List.mem_map.mp hmem
      exact hnone c hc hs
    rw [he, if_neg hnot, children_mk, List.map_append, List.map_singleton, change_segment hg]
    rfl

theorem seen_nil (f : Folder) : seen [] f = some f.face := rfl

theorem seen_cons (segment : String) (v : List String) (f : Folder) :
    seen (segment :: v) f = (f.child? segment).bind (seen v) := by
  unfold seen
  rw [find?, Option.map_bind]
  rfl

theorem seen_new (segment : String) (source : Path) (v : List String) :
    seen v (new segment source) = if v = [] then some (fresh segment source, []) else none := by
  unfold seen
  rw [find?_new]
  split <;> rfl

/-- The folder at the start of a change gets at most one more name. -/
theorem seen_change_here (hg : ∀ i, (g i).segment = i.segment) (segment : String)
    (way : List String) (f : Folder) : seen [] (change (·.withInfo g) (segment :: way) f) =
      some (f.info, withName segment (f.children.map Folder.segment)) := by
  rw [seen_nil, face, change_info, names_change hg]

/-- Further down, a change is seen on its way and nowhere else. -/
theorem seen_change_inside (hg : ∀ i, (g i).segment = i.segment) (segment : String)
    (way : List String) (f : Folder) (x : String) (v : List String) :
    seen (x :: v) (change (·.withInfo g) (segment :: way) f) =
      if x = segment then
        seen v (change (·.withInfo g) way
          ((f.child? segment).getD (.new segment (f.sourceInside segment))))
      else seen (x :: v) f := by
  rw [seen_cons, child?_change hg]
  split
  · rfl
  · exact (seen_cons x v f).symm

theorem grow_nil (f : Folder) : grow [] f = f := by
  obtain ⟨info, children⟩ := f
  rfl

theorem seen_grow_here (segment : String) (way : List String) (f : Folder) :
    seen [] (grow (segment :: way) f) =
      some (f.info, withName segment (f.children.map Folder.segment)) :=
  seen_change_here (fun _ => rfl) segment way f

theorem seen_grow_inside (segment : String) (way : List String) (f : Folder) (x : String)
    (v : List String) : seen (x :: v) (grow (segment :: way) f) =
      if x = segment then
        seen v (grow way ((f.child? segment).getD (.new segment (f.sourceInside segment))))
      else seen (x :: v) f :=
  seen_change_inside (fun _ => rfl) segment way f x v

/-- A change makes the folders on its way, and changes the last one. -/
theorem seen_change (hg : ∀ i, (g i).segment = i.segment) (way v : List String) (f : Folder) :
    seen v (change (·.withInfo g) way f) =
      if v = way then (seen v (grow way f)).map fun x => (g x.1, x.2) else seen v (grow way f) := by
  induction way generalizing v f with
  | nil =>
    rw [grow_nil]
    cases v with
    | nil => rfl
    | cons x v => rfl
  | cons segment way ih =>
    cases v with
    | nil => rw [if_neg (List.cons_ne_nil segment way).symm, seen_change_here hg, seen_grow_here]
    | cons x v =>
      rw [seen_change_inside hg, seen_grow_inside]
      by_cases hx : x = segment
      · subst hx
        simp only [if_true, List.cons.injEq, true_and]
        exact ih v _
      · rw [if_neg hx, if_neg fun he => hx (List.cons.inj he).1, if_neg hx]

/-- A longer way makes the folders of its start again. -/
theorem seen_grow_grow (v w u : List String) (f : Folder) :
    seen u (grow (v ++ w) (grow v f)) = seen u (grow (v ++ w) f) := by
  induction v generalizing u f with
  | nil => rw [grow_nil]
  | cons segment v ih =>
    rw [List.cons_append]
    cases u with
    | nil =>
      have hface : (grow (segment :: v) f).face =
          (f.info, withName segment (f.children.map Folder.segment)) :=
        Option.some.inj (seen_grow_here segment v f)
      obtain ⟨hinfo, hnames⟩ := Prod.mk.inj hface
      rw [seen_grow_here, seen_grow_here, hinfo, hnames]
      unfold withName
      split <;> simp_all
    | cons x u =>
      rw [seen_grow_inside, seen_grow_inside]
      by_cases hx : x = segment
      · subst hx
        have hchild : (grow (x :: v) f).child? x =
            some (grow v ((f.child? x).getD (.new x (f.sourceInside x)))) :=
          (child?_change (fun _ => rfl) x v f x).trans (if_pos rfl)
        rw [if_pos rfl, hchild, Option.getD_some, seen_grow_inside, if_pos rfl]
        exact ih u _
      · rw [if_neg hx, if_neg hx, seen_grow_inside, if_neg hx]

/-- One step behind a folder that is there: the next one is there or it is made, with its name
behind the names of the folder. -/
theorem seen_grow_snoc {way : List String} (segment : String) {f a : Folder}
    (ha : f.find? way = some a) (v : List String) : seen v (grow (way ++ [segment]) f) =
      if v = way ++ [segment] then
        some ((seen v f).getD (fresh segment (a.sourceInside segment), []))
      else if v = way then some (a.info, withName segment (a.children.map Folder.segment))
      else seen v f := by
  induction way generalizing f v with
  | nil =>
    cases ha
    rw [List.nil_append]
    cases v with
    | nil => rw [seen_grow_here, if_neg (List.cons_ne_nil _ _).symm, if_pos rfl]
    | cons x v =>
      rw [seen_grow_inside, if_neg (List.cons_ne_nil x v)]
      by_cases hx : x = segment
      · subst hx
        rw [if_pos rfl, grow_nil, seen_cons]
        cases hc : a.child? x with
        | some c =>
          rw [Option.getD_some, Option.bind_some]
          by_cases hv : v = []
          · rw [hv, if_pos rfl, seen_nil, Option.getD_some]
          · rw [if_neg fun he => hv (List.cons.inj he).2]
        | none =>
          rw [Option.getD_none, Option.bind_none, Option.getD_none, seen_new]
          simp only [List.cons.injEq, true_and]
      · rw [if_neg hx, if_neg fun he => hx (List.cons.inj he).1]
  | cons t way ih =>
    obtain ⟨c, hc, hfind⟩ := Option.bind_eq_some_iff.mp ha
    rw [List.cons_append]
    cases v with
    | nil =>
      have hmem : t ∈ f.children.map Folder.segment := mem_names_of_child? hc
      rw [seen_grow_here, if_neg (List.cons_ne_nil _ _).symm, if_neg (List.cons_ne_nil _ _).symm,
        withName, if_pos hmem]
      rfl
    | cons x v =>
      rw [seen_grow_inside]
      by_cases hx : x = t
      · subst hx
        rw [if_pos rfl, hc, Option.getD_some, seen_cons, hc, Option.bind_some]
        simp only [List.cons.injEq, true_and]
        exact ih hfind v
      · rw [if_neg hx, if_neg fun he => hx (List.cons.inj he).1,
          if_neg fun he => hx (List.cons.inj he).1]

end Folder

/-! ## The register of a tree -/

namespace Tree

open Folder (seen grow face withName)

/-- The entry of what is seen at the end of a way. -/
def Record.ofSeen (way : List String) (x : FolderInfo × List String) : Record :=
  ⟨pathText way, x.1, x.2.map fun segment => (segment, pathText (way ++ [segment]))⟩

/-- The entry of a folder at the end of a way. -/
def Record.of (way : List String) (f : Folder) : Record := .ofSeen way f.face

/-- The folders of a tree by their paths. -/
def register (t : Tree) : Register := fun path =>
  (t.nodes.find? fun n => pathText n.1 == path).map fun n => .of n.1 n.2

end Tree

namespace Folder

open Sourcebook.Tree (wayOf pathText Record Register)

/-- The register of what is seen in a folder. -/
def register (f : Folder) : Register := fun path =>
  (f.seen (wayOf path)).map (.ofSeen (wayOf path))

theorem find?_names {f a : Folder} (hf : f.Tidy) {v : List String} (ha : f.find? v = some a) :
    ∀ s ∈ v, s ≠ "" ∧ '/' ∉ s.toList := by
  induction v generalizing f with
  | nil => exact fun s hs => nomatch hs
  | cons segment v ih =>
    obtain ⟨c, hmem, rfl, hfind⟩ := exists_of_find? ha
    intro s hs
    rcases List.mem_cons.mp hs with rfl | hs
    · exact hf.name hmem
    · exact ih (hf.child hmem) hfind s hs

theorem register_pathText {way : List String} (h : ∀ s ∈ way, s ≠ "" ∧ '/' ∉ s.toList)
    (f : Folder) : f.register (pathText way) = (f.find? way).map (.of way) := by
  unfold register seen
  rw [Tree.wayOf_pathText h, Option.map_map]
  rfl

theorem register_of_find? {f a : Folder} (hf : f.Tidy) {way : List String}
    (ha : f.find? way = some a) : f.register (pathText way) = some (.of way a) := by
  rw [register_pathText (find?_names hf ha), ha, Option.map_some]

/-- Every record is that of a folder at the end of a way. -/
theorem register_eq_some {f : Folder} (hf : f.Tidy) {path : String} {e : Record}
    (h : f.register path = some e) : ∃ way a, f.find? way = some a ∧
      (∀ s ∈ way, s ≠ "" ∧ '/' ∉ s.toList) ∧ path = pathText way ∧ e = .of way a := by
  unfold register seen at h
  rw [Option.map_map] at h
  obtain ⟨a, ha, he⟩ := Option.map_eq_some_iff.mp h
  exact ⟨wayOf path, a, ha, find?_names hf ha, (Tree.pathText_wayOf path).symm, he.symm⟩

end Folder

namespace Tree

open Folder (seen grow face withName)

/-- The tree finds under a path what is at the end of its way. -/
theorem find?_nodes {t : Tree} (ht : t.root.Tidy) (path : String) :
    (t.nodes.find? fun n => pathText n.1 == path) =
      (t.root.find? (wayOf path)).map fun f => (wayOf path, f) := by
  have hnode : ∀ n ∈ t.nodes, t.root.find? n.1 = some n.2 := by
    intro n hn
    obtain ⟨v, hv, hfind⟩ := Folder.find?_of_mem_nodes ht hn
    rwa [hv, List.nil_append]
  cases hfind : t.root.find? (wayOf path) with
  | none =>
    rw [Option.map_none, List.find?_eq_none]
    rintro n hn he
    have hway := (eq_pathText_iff (Folder.find?_names ht (hnode n hn))).mp (beq_iff_eq.mp he).symm
    rw [hway, hnode n hn] at hfind
    cases hfind
  | some a =>
    have hmem : (wayOf path, a) ∈ t.nodes := by
      have hin := Folder.mem_nodes_of_find? hfind []
      rwa [List.nil_append] at hin
    cases hnone : t.nodes.find? fun n => pathText n.1 == path with
    | none => exact absurd (pathText_wayOf path) (by simpa using List.find?_eq_none.mp hnone _ hmem)
    | some n =>
      have hn := hnode n (List.mem_of_find?_eq_some hnone)
      have he : path = pathText n.1 := (by simpa using List.find?_some hnone : pathText n.1 = path).symm
      have hway := (eq_pathText_iff (Folder.find?_names ht hn)).mp he
      rw [hway, hn] at hfind
      rw [Option.map_some, hway, ← Option.some.inj hfind]

theorem register_eq {t : Tree} (ht : t.root.Tidy) : t.register = t.root.register := by
  funext path
  unfold register Folder.register seen
  rw [find?_nodes ht, Option.map_map, Option.map_map]
  rfl

theorem node?_eq {t : Tree} (ht : t.root.Tidy) (path : String) :
    t.node? path = t.root.find? (wayOf path) := by
  unfold node?
  rw [find?_nodes ht, Option.map_map]
  exact Option.map_id'

/-! ## Steps in the register -/

theorem Record.lookup_of (way : List String) (f : Folder) (segment : String) :
    (Record.of way f).inside.lookup segment =
      if segment ∈ f.children.map Folder.segment then some (pathText (way ++ [segment])) else none := by
  change List.lookup segment ((f.children.map Folder.segment).map _) = _
  generalize f.children.map Folder.segment = names
  induction names with
  | nil => rfl
  | cons n names ih =>
    rw [List.map_cons, List.lookup_cons, ih]
    by_cases hn : segment = n
    · simp [hn]
    · rw [beq_eq_false_iff_ne.mpr hn]
      simp [hn]

variable {f a : Folder} {way : List String} {segment : String}

/-- A step down in the register is a step down in the tree, where the next folder is made when it is
missing. -/
theorem descend_register (hf : f.Tidy) (ha : f.find? way = some a)
    (hs : segment ≠ "" ∧ '/' ∉ segment.toList) :
    Register.descend f.register (pathText way) segment =
      ((grow (way ++ [segment]) f).register, pathText (way ++ [segment])) := by
  have hway := Folder.find?_names hf ha
  have hnext : ∀ s ∈ way ++ [segment], s ≠ "" ∧ '/' ∉ s.toList := by
    intro s hmem
    rcases List.mem_append.mp hmem with hmem | hmem
    · exact hway s hmem
    · rwa [List.mem_singleton.mp hmem]
  have hseen := Folder.seen_grow_snoc segment ha
  have hchild : f.find? (way ++ [segment]) = a.child? segment := by
    rw [Folder.find?_snoc, ha, Option.bind_some]
  have hface : f.seen way = some a.face := by rw [seen, ha, Option.map_some]
  unfold Register.descend
  rw [Folder.register_of_find? hf ha]
  dsimp only
  rw [Record.lookup_of]
  by_cases hmem : segment ∈ a.children.map Folder.segment
  · rw [if_pos hmem]
    refine congrArg (·, pathText (way ++ [segment])) (funext fun path => ?_)
    unfold Folder.register
    rw [hseen]
    split
    · next hpath =>
      obtain ⟨c, hc⟩ := Option.isSome_iff_exists.mp (Folder.mem_names.mp hmem)
      rw [hpath, seen, hchild, hc, Option.map_some, Option.getD_some]
    · split
      · next hpath => rw [hpath, hface, withName, if_pos hmem, face]
      · rfl
  · rw [if_neg hmem]
    have hnone : f.seen (way ++ [segment]) = none := by
      have hc : a.child? segment = none := by simpa [Folder.mem_names] using hmem
      rw [seen, hchild, hc, Option.map_none]
    dsimp only
    rw [show (Record.of way a).path = pathText way from rfl, ← pathText_snoc hway]
    refine congrArg (·, pathText (way ++ [segment])) (funext fun path => ?_)
    unfold Register.put Folder.register
    rw [hseen, Function.update_apply, Function.update_apply]
    simp only [eq_pathText_iff hway, eq_pathText_iff hnext]
    by_cases hhere : wayOf path = way
    · have hne : way ≠ way ++ [segment] := fun he => by simpa using congrArg List.length he
      rw [hhere, if_pos rfl, if_neg hne, if_pos rfl, withName, if_neg hmem]
      simp [Record.ofSeen, Record.of, face]
    · rw [if_neg hhere, if_neg hhere]
      split
      · next hpath =>
        rw [hpath, hnone]
        rfl
      · rfl

theorem tidy_grow (hf : f.Tidy) (hway : ∀ s ∈ way, s ≠ "" ∧ '/' ∉ s.toList) : (grow way f).Tidy :=
  Folder.change_tidy (fun _ => rfl) hway hf

theorem exists_find?_grow (way : List String) (f : Folder) : ∃ a, (grow way f).find? way = some a :=
  Option.isSome_iff_exists.mp
    ((Folder.find?_change_isSome (fun _ => rfl) way way f).mpr (Or.inr List.prefix_rfl))

theorem register_congr {f g : Folder} (h : ∀ v, f.seen v = g.seen v) : f.register = g.register := by
  funext path
  unfold Folder.register
  rw [h]

/-- A walk in the register makes what is missing on the way. -/
theorem walk_register (hf : f.Tidy) (hway : ∀ s ∈ way, s ≠ "" ∧ '/' ∉ s.toList) :
    Register.walk f.register way = ((grow way f).register, pathText way) := by
  induction way using List.reverseRecOn with
  | nil =>
    rw [Folder.grow_nil]
    rfl
  | append_singleton way segment ih =>
    have hfront : ∀ s ∈ way, s ≠ "" ∧ '/' ∉ s.toList := fun s hs => hway s (by simp [hs])
    obtain ⟨a, ha⟩ := exists_find?_grow way f
    unfold Register.walk at ih ⊢
    rw [List.foldl_append, ih hfront, List.foldl_cons, List.foldl_nil]
    dsimp only
    rw [descend_register (tidy_grow hf hfront) ha (hway segment (by simp)),
      register_congr fun v => Folder.seen_grow_grow way [segment] v f]

/-- A change in the register is the change in the tree. -/
theorem change_register {g : FolderInfo → FolderInfo} (hg : ∀ i, (g i).segment = i.segment)
    (hf : f.Tidy) (hway : ∀ s ∈ way, s ≠ "" ∧ '/' ∉ s.toList) :
    (f.change (·.withInfo g) way).register = Register.change g way f.register := by
  obtain ⟨a, ha⟩ := exists_find?_grow way f
  unfold Register.change
  rw [walk_register hf hway]
  dsimp only
  rw [Folder.register_pathText hway, ha, Option.map_some]
  dsimp only
  funext path
  unfold Register.put Folder.register
  rw [Function.update_apply, Folder.seen_change hg]
  simp only [eq_pathText_iff hway]
  split
  · next hpath =>
    rw [hpath, seen, ha]
    rfl
  · rfl

variable {source : Path} {metaName : String}

/-- What is put into the tree, one after the other, is put into the register the same way. -/
theorem made_register (additions : List Addition) :
    (made source metaName additions).register = Register.made source additions := by
  rw [register_eq made_tidy]
  induction additions using List.reverseRecOn with
  | nil =>
    funext path
    rw [show (made source metaName []).root = .new "root" source from rfl]
    unfold Folder.register
    rw [Folder.seen_new, show Register.made source [] path = Register.empty source path from rfl]
    unfold Register.empty Register.put
    rw [Function.update_apply]
    have hnames : ∀ s ∈ ([] : List String), s ≠ "" ∧ '/' ∉ s.toList := fun _ h => nomatch h
    have hiff : path = "" ↔ wayOf path = [] := eq_pathText_iff hnames
    simp only [hiff]
    split
    · next hpath =>
      rw [hpath]
      rfl
    · rfl
  | append_singleton additions a ih =>
    rw [made_snoc, add_root, change_register a.effect_segment made_tidy a.way_names, ih]
    unfold Register.made
    rw [List.foldl_append]
    rfl

end Tree

end Sourcebook
