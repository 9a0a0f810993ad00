-- Where the pointers of a register lead: every folder is recorded under its own path, all but the root
-- are pointed to by the one folder above, all are reached from the root, and pointers come to an end.
-- When the tree is arranged, chapters, lists and labels change, and no pointer does.
import Mathlib
import Sourcebook.Proofs.Contents.Emptied
import Sourcebook.Proofs.Contents.Mentioned
import Sourcebook.Proofs.Contents.Register

namespace Sourcebook

open Folder (Every Steady Tidy fresh)

/-! ## Sound registers -/

namespace Tree

/-- The folder of one path points to the folder of another one. -/
def Register.Leads (g : Register) (path inner : String) : Prop :=
  ∃ e segment, g path = some e ∧ (segment, inner) ∈ e.inside

/-- Folders are recorded under their own paths, below the one folder that points to them, and below
the root. -/
structure Register.Sound (g : Register) : Prop where
  root : (g "").isSome = true
  own : ∀ path e, g path = some e → e.path = path
  names : ∀ path e, g path = some e → (e.inside.map (·.1)).Nodup
  pointers : ∀ path e segment inner, g path = some e → (segment, inner) ∈ e.inside →
    inner = pathInside path segment ∧ ∃ d, g inner = some d ∧ d.info.segment = segment
  above : ∀ path e, g path = some e → path ≠ "" → ∃! outer, g.Leads outer path
  reached : ∀ path e, g path = some e → Relation.ReflTransGen g.Leads "" path
  /-- No walk along the pointers goes on forever. -/
  ends : WellFounded fun inner path => g.Leads path inner

/-- Whether there is no chapter and no page in the folder of a path, asked along the pointers. -/
def Register.isEmpty (g : Register) (ends : WellFounded fun inner path => g.Leads path inner)
    (path : String) : Bool :=
  match _h : g path with
  | none => true
  | some e =>
    e.info.chapters.isEmpty && e.info.pages.isEmpty &&
      e.inside.attach.all fun x => g.isEmpty ends x.1.2
termination_by ends.wrap path
decreasing_by exact ⟨e, x.1.1, _h, x.2⟩

/-- The folders from a path on in the order of their turns, along the pointers: those inside come
before the folder around them. -/
def Register.turns (g : Register) (ends : WellFounded fun inner path => g.Leads path inner)
    (path : String) : List String :=
  match _h : g path with
  | none => []
  | some e => (e.inside.attach.flatMap fun x => g.turns ends x.1.2) ++ [path]
termination_by ends.wrap path
decreasing_by exact ⟨e, x.1.1, _h, x.2⟩

namespace Register

variable {g : Register} {path : String} {e : Record}

theorem isEmpty_of_record (ends : WellFounded fun inner path => g.Leads path inner)
    (h : g path = some e) : g.isEmpty ends path = (e.info.chapters.isEmpty &&
      e.info.pages.isEmpty && e.inside.all fun x => g.isEmpty ends x.2) := by
  rw [isEmpty]
  split
  · next hnone =>
    rw [h] at hnone
    cases hnone
  · next d hd =>
    rw [h] at hd
    cases hd
    rw [List.all_subtype (g := fun x => g.isEmpty ends x.2) fun _ _ => rfl, List.unattach_attach]

theorem turns_of_record (ends : WellFounded fun inner path => g.Leads path inner)
    (h : g path = some e) :
    g.turns ends path = (e.inside.flatMap fun x => g.turns ends x.2) ++ [path] := by
  rw [turns]
  split
  · next hnone =>
    rw [h] at hnone
    cases hnone
  · next d hd =>
    rw [h] at hd
    cases hd
    rw [List.flatMap_subtype (g := fun x => g.turns ends x.2) fun _ _ => rfl, List.unattach_attach]

end Register

/-- A path is another one, or starts with it and a slash. All paths are below that of the root. -/
def Below (path inner : String) : Prop :=
  path = "" ∨ inner = path ∨ ∃ rest, inner = path ++ "/" ++ rest

theorem below_pathText {v w : List String} (hv : ∀ s ∈ v, s ≠ "" ∧ '/' ∉ s.toList)
    (hw : ∀ s ∈ w, s ≠ "" ∧ '/' ∉ s.toList) : Below (pathText v) (pathText w) ↔ v <+: w := by
  constructor
  · rintro (hroot | hsame | ⟨rest, hrest⟩)
    · rw [(pathText_eq_empty hv).mp hroot]
      exact List.nil_prefix
    · rw [← wayOf_pathText hw, (eq_pathText_iff hv).mp hsame]
    · by_cases hnil : v = []
      · rw [hnil]
        exact List.nil_prefix
      · have hway := congrArg wayOf hrest
        rw [wayOf_pathText hw, wayOf_append fun he => hnil ((pathText_eq_empty hv).mp he),
          wayOf_pathText hv] at hway
        exact ⟨_, hway.symm⟩
  · rintro ⟨u, rfl⟩
    have hu : ∀ s ∈ u, s ≠ "" ∧ '/' ∉ s.toList := fun s hs => hw s (List.mem_append_right v hs)
    by_cases hpath : pathText v = ""
    · exact Or.inl hpath
    · by_cases hunil : u = []
      · rw [hunil, List.append_nil]
        exact Or.inr (Or.inl rfl)
      · -- the path of both ways is read back to the two of them
        have hrest := wayOf_pathText hu
        rw [wayOf, if_neg fun he => hunil ((pathText_eq_empty hu).mp he)] at hrest
        have hway := wayOf_append hpath (pathText u)
        rw [wayOf_pathText hv, hrest] at hway
        exact Or.inr (Or.inr ⟨pathText u, ((eq_pathText_iff hw).mpr hway).symm⟩)

/-! ## The pointers of a tree -/

theorem Record.mem_inside {way : List String} {f : Folder} {segment inner : String} :
    (segment, inner) ∈ (Record.of way f).inside ↔
      segment ∈ f.children.map Folder.segment ∧ inner = pathText (way ++ [segment]) := by
  change (segment, inner) ∈ (f.children.map Folder.segment).map _ ↔ _
  rw [List.mem_map]
  constructor
  · rintro ⟨s, hs, he⟩
    cases he
    exact ⟨hs, rfl⟩
  · rintro ⟨hs, rfl⟩
    exact ⟨segment, hs, rfl⟩

variable {f a : Folder} {way : List String}

theorem find?_further (hf : f.Tidy) (ha : f.find? way = some a) {c : Folder}
    (hc : c ∈ a.children) : f.find? (way ++ [c.segment]) = some c := by
  rw [Folder.find?_snoc, ha, Option.bind_some]
  exact Folder.find?_segment (hf.find? ha).here.1 hc

/-- Folders with one path are at the end of one way. -/
theorem way_of_pathText (hf : f.Tidy) {v w : List String} {b : Folder} (hv : f.find? v = some a)
    (hw : f.find? w = some b) (h : pathText v = pathText w) : v = w := by
  rw [← wayOf_pathText (Folder.find?_names hf hv), h, wayOf_pathText (Folder.find?_names hf hw)]

/-- A name inside a folder leads to the folder of that name. -/
theorem register_inside (hf : f.Tidy) (ha : f.find? way = some a) {segment : String}
    (hs : segment ∈ a.children.map Folder.segment) :
    ∃ c ∈ a.children, c.segment = segment ∧ f.find? (way ++ [segment]) = some c ∧
      f.register (pathText (way ++ [segment])) = some (.of (way ++ [segment]) c) := by
  obtain ⟨c, hc, rfl⟩ := List.mem_map.mp hs
  have hfind := find?_further hf ha hc
  exact ⟨c, hc, rfl, hfind, Folder.register_of_find? hf hfind⟩

theorem register_leads (hf : f.Tidy) (ha : f.find? way = some a) {segment : String}
    (hs : segment ∈ a.children.map Folder.segment) :
    Register.Leads f.register (pathText way) (pathText (way ++ [segment])) :=
  ⟨.of way a, segment, Folder.register_of_find? hf ha, Record.mem_inside.mpr ⟨hs, rfl⟩⟩

theorem register_reached (hf : f.Tidy) (ha : f.find? way = some a) :
    Relation.ReflTransGen (Register.Leads f.register) "" (pathText way) := by
  induction way using List.reverseRecOn generalizing a with
  | nil => exact .refl
  | append_singleton way segment ih =>
    obtain ⟨b, hb, hinside⟩ := Folder.exists_of_find?_snoc ha
    exact (ih hb).tail (register_leads hf hb (List.mem_map.mpr ⟨a, hinside⟩))

/-- Pointers come to an end as the tree does. -/
theorem register_ends (hf : f.Tidy) (a : Folder) {way : List String} (ha : f.find? way = some a) :
    Acc (fun inner path => Register.Leads f.register path inner) (pathText way) := by
  induction a generalizing way with
  | mk info children ih =>
    refine .intro _ ?_
    rintro inner ⟨e, segment, he, hmem⟩
    rw [Folder.register_of_find? hf ha] at he
    cases he
    obtain ⟨hs, rfl⟩ := Record.mem_inside.mp hmem
    obtain ⟨c, hc, -, hfind, -⟩ := register_inside hf ha hs
    exact ih c hc hfind

theorem sound_register (hf : f.Tidy) : Register.Sound f.register where
  root := rfl
  own path e he := by
    obtain ⟨way, a, -, -, rfl, rfl⟩ := Folder.register_eq_some hf he
    rfl
  names path e he := by
    obtain ⟨way, a, ha, -, -, rfl⟩ := Folder.register_eq_some hf he
    change (((a.children.map Folder.segment).map _).map _).Nodup
    rw [List.map_map]
    exact (List.map_id _).symm ▸ (hf.find? ha).here.1
  pointers path e segment inner he hmem := by
    obtain ⟨way, a, ha, hway, rfl, rfl⟩ := Folder.register_eq_some hf he
    obtain ⟨hs, rfl⟩ := Record.mem_inside.mp hmem
    obtain ⟨c, -, hsegment, -, hc⟩ := register_inside hf ha hs
    exact ⟨pathText_snoc hway segment, _, hc, hsegment⟩
  above path e he hne := by
    obtain ⟨way, a, hfind, -, rfl, -⟩ := Folder.register_eq_some hf he
    rcases List.eq_nil_or_concat' way with rfl | ⟨front, segment, rfl⟩
    · exact absurd rfl hne
    · obtain ⟨b, hb, hinside⟩ := Folder.exists_of_find?_snoc hfind
      have hs : segment ∈ b.children.map Folder.segment := List.mem_map.mpr ⟨a, hinside⟩
      refine ⟨pathText front, register_leads hf hb hs, ?_⟩
      rintro outer ⟨d, name, hd, hmem⟩
      obtain ⟨v, c, hc, -, rfl, rfl⟩ := Folder.register_eq_some hf hd
      obtain ⟨hname, hpath⟩ := Record.mem_inside.mp hmem
      obtain ⟨x, -, -, hx, -⟩ := register_inside hf hc hname
      have hsame := way_of_pathText hf hfind hx hpath
      rw [(List.append_inj' hsame rfl).1]
  reached path e he := by
    obtain ⟨way, a, ha, -, rfl, -⟩ := Folder.register_eq_some hf he
    exact register_reached hf ha
  ends := by
    refine ⟨fun path => ?_⟩
    cases he : f.register path with
    | none =>
      refine .intro _ ?_
      rintro inner ⟨e, segment, hsome, -⟩
      rw [he] at hsome
      cases hsome
    | some e =>
      obtain ⟨way, a, ha, -, rfl, -⟩ := Folder.register_eq_some hf he
      exact register_ends hf a ha

end Tree

/-! ## Folders that are empty -/

namespace Folder

/-- An empty folder is one with nothing in any folder at the end of a way. -/
theorem isEmpty_iff {f : Folder} (hf : f.Tidy) : f.isEmpty = true ↔
    ∀ v a, f.find? v = some a → a.info.chapters = [] ∧ a.info.pages = [] := by
  constructor
  · intro h v a ha
    obtain ⟨info, children⟩ := a
    obtain ⟨hchapters, hpages, -⟩ := isEmpty_mk.mp (isEmpty_of_find? ha h)
    exact ⟨hchapters, hpages⟩
  · intro h
    by_contra hfull
    obtain ⟨way, a, ha, hin⟩ := exists_of_not_isEmpty hf (Bool.eq_false_iff.mpr hfull)
    rcases hin with hchapters | hpages
    · exact hchapters (h way a ha).1
    · exact hpages (h way a ha).2

/-- A folder lists no folders but those inside. -/
def ListsInside (f : Folder) : Prop :=
  ∀ segment, .folder segment ∈ f.info.items → segment ∈ f.children.map Folder.segment

end Folder

namespace Tree

/-- A folder is as empty as the pointers tell. -/
theorem register_isEmpty {f : Folder} (hf : f.Tidy)
    (ends : WellFounded fun inner path => Register.Leads f.register path inner) (a : Folder)
    {way : List String} (ha : f.find? way = some a) :
    Register.isEmpty f.register ends (pathText way) = a.isEmpty := by
  induction a generalizing way with
  | mk info children ih =>
    rw [Register.isEmpty_of_record ends (Folder.register_of_find? hf ha), Bool.eq_iff_iff,
      Folder.isEmpty_mk, Bool.and_eq_true, Bool.and_eq_true, List.isEmpty_iff, List.isEmpty_iff,
      List.all_eq_true, and_assoc]
    refine and_congr_right fun _ => and_congr_right fun _ => ⟨fun h c hc => ?_, fun h x hx => ?_⟩
    · have hs : c.segment ∈ children.map Folder.segment := List.mem_map_of_mem hc
      have hinside := h _ (Record.mem_inside.mpr ⟨hs, rfl⟩)
      rwa [ih c hc (find?_further hf ha hc)] at hinside
    · obtain ⟨hs, hinner⟩ := Record.mem_inside.mp hx
      obtain ⟨c, hc, -, hfind, -⟩ := register_inside hf ha hs
      rw [hinner, ih c hc hfind]
      exact h c hc

/-! ## Turns -/

variable {f : Folder}

theorem turns_eq (hf : f.Tidy)
    (ends : WellFounded fun inner path => Register.Leads f.register path inner) {a : Folder}
    {way : List String} (ha : f.find? way = some a) :
    Register.turns f.register ends (pathText way) =
      ((a.children.map Folder.segment).flatMap fun segment =>
        Register.turns f.register ends (pathText (way ++ [segment]))) ++ [pathText way] := by
  rw [Register.turns_of_record ends (Folder.register_of_find? hf ha)]
  refine congrArg (· ++ [pathText way]) ?_
  change List.flatMap _ ((a.children.map Folder.segment).map _) = _
  rw [List.flatMap_map]

/-- The folders from one on are those at the ends of the ways from it. -/
theorem mem_turns (hf : f.Tidy)
    (ends : WellFounded fun inner path => Register.Leads f.register path inner) (a : Folder)
    {way : List String} (ha : f.find? way = some a) {path : String} :
    path ∈ Register.turns f.register ends (pathText way) ↔
      ∃ v b, a.find? v = some b ∧ path = pathText (way ++ v) := by
  induction a generalizing way with
  | mk info children ih =>
    rw [turns_eq hf ends ha, List.mem_append, List.mem_singleton, List.mem_flatMap]
    constructor
    · rintro (⟨segment, hs, hpath⟩ | rfl)
      · obtain ⟨c, hc, rfl, hfind, -⟩ := register_inside hf ha hs
        obtain ⟨v, b, hb, rfl⟩ := (ih c hc hfind).mp hpath
        refine ⟨c.segment :: v, b, (Folder.find?_inside (hf.find? ha) hc v).trans hb, ?_⟩
        rw [List.append_assoc, List.singleton_append]
      · exact ⟨[], _, rfl, by rw [List.append_nil]⟩
    · rintro ⟨v, b, hb, rfl⟩
      cases v with
      | nil => exact Or.inr (by rw [List.append_nil])
      | cons segment v =>
        obtain ⟨c, hmem, rfl, hfind⟩ := Folder.exists_of_find? hb
        refine Or.inl ⟨c.segment, List.mem_map_of_mem hmem, ?_⟩
        refine (ih c hmem (find?_further hf ha hmem)).mpr ⟨v, b, hfind, ?_⟩
        rw [List.append_assoc, List.singleton_append]

/-- Every folder has one turn. -/
theorem nodup_turns (hf : f.Tidy)
    (ends : WellFounded fun inner path => Register.Leads f.register path inner) (a : Folder)
    {way : List String} (ha : f.find? way = some a) :
    (Register.turns f.register ends (pathText way)).Nodup := by
  induction a generalizing way with
  | mk info children ih =>
    -- what comes in the turns of a folder inside is further down on a way through it
    have hinside : ∀ segment ∈ children.map Folder.segment, ∀ path,
        path ∈ Register.turns f.register ends (pathText (way ++ [segment])) →
        ∃ v b, f.find? (way ++ segment :: v) = some b ∧ path = pathText (way ++ segment :: v) := by
      intro segment hs path hpath
      obtain ⟨c, -, rfl, hfind, -⟩ := register_inside hf ha hs
      obtain ⟨v, b, hb, rfl⟩ := (mem_turns hf ends c hfind).mp hpath
      rw [List.append_assoc, List.singleton_append]
      refine ⟨v, b, ?_, rfl⟩
      rw [List.append_cons, Folder.find?_append, hfind, Option.bind_some, hb]
    rw [turns_eq hf ends ha, List.nodup_append, List.nodup_flatMap]
    refine ⟨⟨fun segment hs => ?_, ?_⟩, List.nodup_singleton _, ?_⟩
    · obtain ⟨c, hc, -, hfind, -⟩ := register_inside hf ha hs
      exact ih c hc hfind
    · refine (hf.find? ha).here.1.pairwise_of_forall_ne fun s hs t ht hne path hps hpt => hne ?_
      obtain ⟨v, b, hb, rfl⟩ := hinside s hs path hps
      obtain ⟨w, c, hc, hpath⟩ := hinside t ht _ hpt
      have hway := List.append_cancel_left (way_of_pathText hf hb hc hpath)
      exact (List.cons.inj hway).1
    · rintro path hpath _ hself rfl
      obtain ⟨segment, hs, hpath⟩ := List.mem_flatMap.mp hpath
      obtain ⟨v, b, hb, he⟩ := hinside segment hs _ hpath
      rw [List.mem_singleton.mp hself] at he
      have hway := way_of_pathText hf ha hb he
      exact List.cons_ne_nil segment v (List.append_right_eq_self.mp hway.symm)

/-- The folders that are recorded are those that have a turn, each one. -/
theorem turns_register (hf : f.Tidy)
    (ends : WellFounded fun inner path => Register.Leads f.register path inner) :
    (Register.turns f.register ends "").Nodup ∧
      ∀ path, path ∈ Register.turns f.register ends "" ↔ (f.register path).isSome = true := by
  have hroot : f.find? [] = some f := rfl
  refine ⟨nodup_turns hf ends f hroot, fun path => (mem_turns hf ends f hroot).trans ?_⟩
  rw [Option.isSome_iff_exists]
  constructor
  · rintro ⟨v, a, ha, rfl⟩
    exact ⟨_, Folder.register_of_find? hf ha⟩
  · rintro ⟨e, he⟩
    obtain ⟨v, a, ha, -, rfl, -⟩ := Folder.register_eq_some hf he
    exact ⟨v, a, ha, by rw [List.nil_append]⟩

/-- A folder is empty when nothing is recorded from its path on. -/
theorem isEmpty_iff_register (hf : f.Tidy) {a : Folder} {way : List String}
    (ha : f.find? way = some a) : a.isEmpty = true ↔
      ∀ inner e, f.register inner = some e → Below (pathText way) inner →
        e.info.chapters = [] ∧ e.info.pages = [] := by
  have hway := Folder.find?_names hf ha
  rw [Folder.isEmpty_iff (hf.find? ha)]
  constructor
  · intro h inner e he hbelow
    obtain ⟨w, b, hb, hw, rfl, rfl⟩ := Folder.register_eq_some hf he
    obtain ⟨v, rfl⟩ := (below_pathText hway hw).mp hbelow
    rw [Folder.find?_append, ha, Option.bind_some] at hb
    exact h v b hb
  · intro h v b hb
    have hinner : f.find? (way ++ v) = some b := by
      rw [Folder.find?_append, ha, Option.bind_some, hb]
    have hnames := Folder.find?_names hf hinner
    exact h (pathText (way ++ v)) (.of (way ++ v) b) (Folder.register_of_find? hf hinner)
      ((below_pathText hway hnames).mpr (List.prefix_append way v))

/-- The folders of a tree as they are recorded: the pointers are sound, a folder is as empty as they
tell, which is when nothing is recorded below its path, every folder has one turn, and it lists no
folders but those that it points to. -/
structure Regular (t : Tree) : Prop where
  sound : t.register.Sound
  turns : (t.register.turns sound.ends "").Nodup ∧
    ∀ path, path ∈ t.register.turns sound.ends "" ↔ (t.register path).isSome = true
  asks : ∀ path f, t.node? path = some f → t.register.isEmpty sound.ends path = f.isEmpty
  empty : ∀ path f, t.node? path = some f → (f.isEmpty = true ↔
    ∀ inner e, t.register inner = some e → Below path inner →
      e.info.chapters = [] ∧ e.info.pages = [])
  lists : ∀ path e segment, t.register path = some e → .folder segment ∈ e.info.items →
    ∃ inner, (segment, inner) ∈ e.inside

theorem node?_eq_some {t : Tree} (ht : t.root.Tidy) {path : String} {f : Folder}
    (h : t.node? path = some f) : ∃ way, t.root.find? way = some f ∧
      (∀ s ∈ way, s ≠ "" ∧ '/' ∉ s.toList) ∧ path = pathText way := by
  rw [node?_eq ht] at h
  exact ⟨wayOf path, h, Folder.find?_names ht h, (pathText_wayOf path).symm⟩

theorem regular_of_tidy {t : Tree} (ht : t.root.Tidy) (hl : Every Folder.ListsInside t.root) :
    t.Regular where
  sound := by
    rw [register_eq ht]
    exact sound_register ht
  turns := by
    have hturns : ∀ (g : Register) (ends : WellFounded fun inner path => g.Leads path inner),
        g = t.root.register → (g.turns ends "").Nodup ∧
          ∀ path, path ∈ g.turns ends "" ↔ (g path).isSome = true := by
      rintro _ ends rfl
      exact turns_register ht ends
    exact hturns _ _ (register_eq ht)
  asks path f hf := by
    obtain ⟨way, hfind, -, rfl⟩ := node?_eq_some ht hf
    have hasks : ∀ (g : Register) (ends : WellFounded fun inner path => g.Leads path inner),
        g = t.root.register → g.isEmpty ends (pathText way) = f.isEmpty := by
      rintro _ ends rfl
      exact register_isEmpty ht ends f hfind
    exact hasks _ _ (register_eq ht)
  empty path f hf := by
    obtain ⟨way, hfind, -, rfl⟩ := node?_eq_some ht hf
    rw [register_eq ht]
    exact isEmpty_iff_register ht hfind
  lists path e segment he hitem := by
    rw [register_eq ht] at he
    obtain ⟨way, a, ha, -, -, rfl⟩ := Folder.register_eq_some ht he
    exact ⟨_, Record.mem_inside.mpr ⟨(hl.find? ha).here segment hitem, rfl⟩⟩

end Tree

/-! ## Arranged trees -/

namespace Folder

theorem steady_listsInside : Steady ListsInside where
  without id h segment hitem := h segment (List.mem_of_mem_filter hitem)
  inside hf h segment hitem := by
    rw [children_mk, fades_segments hf]
    exact h segment hitem
  label l h segment hitem := h segment hitem

mutual

/-- Folders alone, without what they hold and list, and without their labels. -/
def bare : Folder → Folder
  | .mk info children => .mk (fresh info.segment info.source) (bareAll children)

def bareAll : List Folder → List Folder
  | [] => []
  | c :: rest => c.bare :: bareAll rest

end

theorem bareAll_eq (cs : List Folder) : bareAll cs = cs.map bare := by
  induction cs with
  | nil => rfl
  | cons c cs ih => rw [bareAll, ih, List.map_cons]

theorem bare_mk (info : FolderInfo) (children : List Folder) :
    (Folder.mk info children).bare =
      .mk (fresh info.segment info.source) (children.map bare) := by
  rw [bare, bareAll_eq]

theorem segment_bare (f : Folder) : f.bare.segment = f.segment := by
  obtain ⟨info, children⟩ := f
  rw [bare_mk]
  rfl

theorem child?_bare (f : Folder) (segment : String) :
    f.bare.child? segment = (f.child? segment).map bare := by
  obtain ⟨info, children⟩ := f
  unfold child?
  rw [bare_mk, children_mk, children_mk, List.find?_map, Function.comp_def]
  simp only [segment_bare]

theorem find?_bare (v : List String) (f : Folder) : f.bare.find? v = (f.find? v).map bare := by
  induction v generalizing f with
  | nil => rfl
  | cons segment v ih =>
    rw [find?, find?, child?_bare, Option.bind_map, Option.map_bind]
    exact congrArg _ (funext ih)

theorem Lost.bare {id : String} {way : List String} {f g : Folder} (h : Lost id way f g) :
    g.bare = f.bare := by
  induction h with
  | here _ =>
    rw [bare_mk, bare_mk]
    rfl
  | inside _ _ ih => simp only [bare_mk, List.map_append, List.map_cons, ih]

end Folder

namespace Arrange

variable {disk : Disk} {metaName : String} {way : List String} {w : Work} {info : FolderInfo}
  {children : List Folder}

theorem lasting_bare (bs : List Folder) : Lasting fun children => children.map Folder.bare = bs where
  relabel segment label h := by
    rw [← h, relabel, List.map_map]
    refine List.map_congr_left fun c _ => ?_
    obtain ⟨info, children⟩ := c
    rw [Function.comp_apply]
    split
    · exact (Folder.bare_mk _ children).trans (Folder.bare_mk info children).symm
    · rfl
  lost {id way f g} hl h := by
    have hbare := hl.bare
    obtain ⟨i, cs⟩ := f
    obtain ⟨j, ds⟩ := g
    rw [Folder.bare_mk, Folder.bare_mk] at hbare
    exact (Folder.mk.inj hbare).2.trans h

theorem arrangeHere_bare :
    (arrangeHere disk metaName way w info children).2.bare = (Folder.mk info children).bare := by
  unfold arrangeHere
  split
  · rfl
  · rfl
  · next file _ _ =>
    obtain ⟨hsegment, hsource, -⟩ := arrangeBy_info file metaName way w info children
    have hinside : (arrangeBy file metaName way w info children).2.children.map Folder.bare = _ :=
      arrangeBy_inside_folders (Q := fun cs => cs.map Folder.bare = children.map Folder.bare) file
        (lasting_bare _) rfl
    generalize (arrangeBy file metaName way w info children).2 = f at hsegment hsource hinside ⊢
    obtain ⟨i, cs⟩ := f
    rw [Folder.children_mk] at hinside
    have hself : fresh i.segment i.source = fresh info.segment info.source :=
      congrArg₂ fresh hsegment hsource
    rw [Folder.bare_mk, Folder.bare_mk, hinside, hself]

/-- Arranging a tree leaves the folders where they are, and the directories that they stand for. -/
theorem arrange_bare (f : Folder) : (arrange disk metaName way w f).2.bare = f.bare := by
  have hall : ∀ (cs : List Folder) way w,
      (∀ c ∈ cs, ∀ v w, (arrange disk metaName v w c).2.bare = c.bare) →
      (arrangeAll disk metaName way w cs).2.map Folder.bare = cs.map Folder.bare := by
    intro cs way w hone
    induction cs generalizing w with
    | nil => simp [arrangeAll]
    | cons c cs ih =>
      rw [arrangeAll_cons]
      simp only [List.map_cons, hone c List.mem_cons_self,
        ih _ fun d hd => hone d (List.mem_cons_of_mem _ hd)]
  induction f generalizing way w with
  | mk info children ih =>
    rw [arrange_mk, arrangeHere_bare, Folder.bare_mk, Folder.bare_mk,
      hall children way w fun c hc v w => ih c hc]

theorem mem_arrangeAll {cs : List Folder} {d : Folder}
    (h : d ∈ (arrangeAll disk metaName way w cs).2) :
    ∃ c ∈ cs, ∃ v x, d = (arrange disk metaName v x c).2 := by
  induction cs generalizing w with
  | nil => simp [arrangeAll] at h
  | cons c cs ih =>
    rw [arrangeAll_cons] at h
    rcases List.mem_cons.mp h with rfl | h
    · exact ⟨c, List.mem_cons_self, _, _, rfl⟩
    · obtain ⟨b, hb, hd⟩ := ih h
      exact ⟨b, List.mem_cons_of_mem _ hb, hd⟩

/-- What is steady, and stays when one folder is arranged, holds of every folder of an arranged tree,
also when the work has stopped on the way. -/
theorem arrange_steady {P : Folder → Prop} (hP : Steady P)
    (hinside : ∀ {info cs ds}, ds.map Folder.segment = cs.map Folder.segment →
      P (.mk info cs) → P (.mk info ds))
    (hmade : ∀ {file way w info cs}, P (.mk info cs) → P (arrangeBy file metaName way w info cs).2)
    {f : Folder} (hf : Every P f) : Every P (arrange disk metaName way w f).2 := by
  induction f generalizing way w with
  | mk info children ih =>
    have hhere : P (.mk info (arrangeAll disk metaName way w children).2) :=
      hinside (arrangeAll_segments children) hf.here
    have hall : ∀ d ∈ (arrangeAll disk metaName way w children).2, Every P d := by
      intro d hd
      obtain ⟨c, hc, v, x, rfl⟩ := mem_arrangeAll hd
      exact ih c hc (hf.child hc)
    rw [arrange_mk]
    unfold arrangeHere
    split
    · exact .mk hhere hall
    · exact .mk hhere hall
    · next file _ _ =>
      exact Every.mk (hmade hhere) (arrangeBy_inside_folders file (lasting_every hP) hall)

end Arrange

namespace Tree

/-- A record without what the folder holds and lists, and without its label. -/
def Record.bare (e : Record) : Record := { e with info := fresh e.info.segment e.info.source }

theorem register_bare (f : Folder) (path : String) :
    f.bare.register path = (f.register path).map Record.bare := by
  have hof : ∀ way : List String, Record.of way ∘ Folder.bare = Record.bare ∘ Record.of way := by
    intro way
    funext g
    obtain ⟨info, children⟩ := g
    simp [Record.of, Record.ofSeen, Record.bare, Folder.face, Folder.bare_mk, fresh,
      Function.comp_def, Folder.segment_bare]
  unfold Folder.register Folder.seen
  rw [Folder.find?_bare, Option.map_map, Option.map_map, Option.map_map, Option.map_map]
  exact congrArg (Option.map · _) (hof (wayOf path))

variable {source : Path} {metaName : String} {additions : List Addition}

/-- Before a tree is arranged its folders list nothing. -/
theorem made_unlisted : Every (fun f => f.info.items = []) (made source metaName additions).root := by
  induction additions using List.reverseRecOn with
  | nil => exact .mk rfl fun _ h => nomatch h
  | append_singleton as a ih =>
    rw [made_snoc, add_root]
    refine Folder.change_every (N := fun _ => True) a.effect_segment (fun i cs h => ?_)
      (fun _ _ _ _ _ _ h => h) (fun _ _ _ _ _ h => h) (fun _ _ => rfl) (fun _ _ => trivial) ih
    cases a with
    | chapter c path =>
      change (ite _ _ _ : FolderInfo).items = []
      split <;> exact h
    | page p path => exact h
    | mount path dir => exact h

theorem made_listsInside : Every Folder.ListsInside (made source metaName additions).root := by
  refine made_unlisted.imp fun f h segment hitem => ?_
  rw [h] at hitem
  cases hitem

/-- A tree that is regular is arranged to a regular one, whether the work comes to its end or not. -/
theorem regular_arrange {t : Tree} (ht : t.root.Tidy) (hl : Every Folder.ListsInside t.root)
    (disk : Disk) : (t.arrange disk).1.root.Tidy ∧ (t.arrange disk).1.Regular := by
  have htidy : (t.arrange disk).1.root.Tidy :=
    Arrange.arrange_steady Folder.steady_neat (fun hs h => h.of_segments hs)
      (fun h => Arrange.arrangeBy_inside_folders _ (Arrange.lasting_neat _) h) ht
  refine ⟨htidy, regular_of_tidy htidy ?_⟩
  refine Arrange.arrange_steady Folder.steady_listsInside (fun hs h segment hitem => ?_)
    (fun _ segment hitem => ?_) hl
  · rw [Folder.children_mk, hs]
    exact h segment hitem
  · obtain ⟨c, hc, -⟩ := Arrange.arrangeBy_listsFull _ segment hitem
    exact Folder.mem_names_of_child? hc

/-- No pointer changes when a tree is arranged, and no folder comes to stand for another directory. -/
theorem register_arrange {t : Tree} (ht : t.root.Tidy) (hl : Every Folder.ListsInside t.root)
    (disk : Disk) (path : String) : ((t.arrange disk).1.register path).map Record.bare =
      (t.register path).map Record.bare := by
  have hbare : (t.arrange disk).1.root.bare = t.root.bare := Arrange.arrange_bare t.root
  rw [register_eq (regular_arrange ht hl disk).1, register_eq ht, ← register_bare, ← register_bare,
    hbare]

end Tree

end Sourcebook
