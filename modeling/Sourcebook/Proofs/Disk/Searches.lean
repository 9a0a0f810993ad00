-- What a search over the disk finds: paths whose names stand on the disk or in the pattern.
import Mathlib
import Sourcebook.Disk.Glob
import Sourcebook.Proofs.Disk.Files
import Sourcebook.Proofs.Disk.Paths

namespace Sourcebook

/-! ## Steps that can fail -/

theorem bind_ok {ε α β : Type} {x : Except ε α} {f : α → Except ε β} {b : β}
    (h : x >>= f = .ok b) : ∃ a, x = .ok a ∧ f a = .ok b := by
  cases x with
  | error e => cases h
  | ok a => exact ⟨a, rfl, h⟩

theorem map_ok {ε α β : Type} {x : Except ε α} {f : α → β} {b : β} (h : x.map f = .ok b) :
    ∃ a, x = .ok a ∧ f a = b := by
  cases x with
  | error e => cases h
  | ok a =>
    cases h
    exact ⟨a, rfl, rfl⟩

theorem mapError_ok {ε δ α : Type} {x : Except ε α} {f : ε → δ} {a : α}
    (h : x.mapError f = .ok a) : x = .ok a := by
  cases x with
  | error e => cases h
  | ok b =>
    cases h
    rfl

theorem mem_of_mapM_ok {ε α β : Type} {f : α → Except ε β} {as : List α} {bs : List β}
    (h : as.mapM f = .ok bs) {b : β} (hb : b ∈ bs) : ∃ a ∈ as, f a = .ok b := by
  induction as generalizing bs with
  | nil =>
    cases h
    cases hb
  | cons a as ih =>
    rw [List.mapM_cons] at h
    obtain ⟨c, hc, h⟩ := bind_ok h
    obtain ⟨cs, hcs, h⟩ := bind_ok h
    cases h
    rcases List.mem_cons.mp hb with rfl | hb
    · exact ⟨a, List.mem_cons_self, hc⟩
    · obtain ⟨a', ha', he⟩ := ih hcs hb
      exact ⟨a', List.mem_cons_of_mem _ ha', he⟩

theorem mapM_returns_iff {ε α β : Type} {f : α → Except ε β} {as : List α} :
    (∃ bs, as.mapM f = .ok bs) ↔ ∀ a ∈ as, ∃ b, f a = .ok b := by
  induction as with
  | nil => simp [List.mapM_nil, pure, Except.pure]
  | cons a as ih =>
    rw [List.forall_mem_cons, ← ih, List.mapM_cons]
    constructor
    · rintro ⟨bs, h⟩
      obtain ⟨b, hb, h⟩ := bind_ok h
      obtain ⟨rest, hrest, -⟩ := bind_ok h
      exact ⟨⟨b, hb⟩, rest, hrest⟩
    · rintro ⟨⟨b, hb⟩, rest, hrest⟩
      rw [hb, hrest]
      exact ⟨_, rfl⟩

theorem mapM_ok_mem {ε α β : Type} {f : α → Except ε β} {as : List α} {bs : List β}
    (h : as.mapM f = .ok bs) {a : α} (ha : a ∈ as) : ∃ b ∈ bs, f a = .ok b := by
  induction as generalizing bs with
  | nil => cases ha
  | cons c as ih =>
    rw [List.mapM_cons] at h
    obtain ⟨b, hb, h⟩ := bind_ok h
    obtain ⟨rest, hrest, h⟩ := bind_ok h
    cases h
    rcases List.mem_cons.mp ha with rfl | ha
    · exact ⟨b, List.mem_cons_self, hb⟩
    · obtain ⟨b', hb', hf⟩ := ih hrest ha
      exact ⟨b', List.mem_cons_of_mem _ hb', hf⟩

theorem filterAuxM_ok {ε α : Type} {p : α → Except ε Bool} {as acc bs : List α}
    (h : as.filterAuxM p acc = .ok bs) :
    (∀ a ∈ as, ∃ b, p a = .ok b) ∧ ∃ kept : List α, bs = kept.reverse ++ acc ∧ kept.Sublist as ∧
      ∀ a, a ∈ kept ↔ a ∈ as ∧ p a = .ok true := by
  induction as generalizing acc with
  | nil =>
    cases h
    exact ⟨fun _ ha => absurd ha List.not_mem_nil, [], rfl, List.Sublist.refl _, by simp⟩
  | cons a as ih =>
    rw [List.filterAuxM] at h
    obtain ⟨keep, hkeep, h⟩ := bind_ok h
    obtain ⟨hall, kept, hbs, hsub, hmem⟩ := ih h
    refine ⟨List.forall_mem_cons.mpr ⟨⟨keep, hkeep⟩, hall⟩, ?_⟩
    cases keep with
    | false =>
      refine ⟨kept, hbs, hsub.cons a, fun b => (hmem b).trans ?_⟩
      rw [List.mem_cons, or_and_right, or_iff_right]
      rintro ⟨rfl, hb⟩
      rw [hkeep] at hb
      cases hb
    | true =>
      refine ⟨a :: kept, by rw [hbs, cond_true]; simp, hsub.cons_cons a, fun b => ?_⟩
      rw [List.mem_cons, hmem, List.mem_cons, or_and_right]
      refine or_congr_left ⟨?_, fun h => h.1⟩
      rintro rfl
      exact ⟨rfl, hkeep⟩

theorem filterAuxM_returns {ε α : Type} {p : α → Except ε Bool} {as acc : List α}
    (h : ∀ a ∈ as, ∃ b, p a = .ok b) : ∃ bs, as.filterAuxM p acc = .ok bs := by
  induction as generalizing acc with
  | nil => exact ⟨acc, rfl⟩
  | cons a as ih =>
    obtain ⟨⟨keep, hkeep⟩, hrest⟩ := List.forall_mem_cons.mp h
    obtain ⟨bs, hbs⟩ : ∃ bs, as.filterAuxM p (cond keep (a :: acc) acc) = .ok bs := ih hrest
    rw [List.filterAuxM, hkeep]
    exact ⟨bs, hbs⟩

/-- A test of every element goes through when each one can be tested. -/
theorem filterM_returns_iff {ε α : Type} {p : α → Except ε Bool} {as : List α} :
    (∃ bs, as.filterM p = .ok bs) ↔ ∀ a ∈ as, ∃ b, p a = .ok b := by
  rw [List.filterM]
  constructor
  · rintro ⟨bs, h⟩
    obtain ⟨cs, hcs, -⟩ := bind_ok h
    exact (filterAuxM_ok hcs).1
  · intro h
    obtain ⟨cs, hcs⟩ : ∃ cs, as.filterAuxM p [] = .ok cs := filterAuxM_returns h
    rw [hcs]
    exact ⟨_, rfl⟩

theorem filterM_ok {ε α : Type} {p : α → Except ε Bool} {as bs : List α}
    (h : as.filterM p = .ok bs) :
    bs.Sublist as ∧ ∀ a, a ∈ bs ↔ a ∈ as ∧ p a = .ok true := by
  rw [List.filterM] at h
  obtain ⟨cs, hcs, h⟩ := bind_ok h
  cases h
  obtain ⟨-, kept, rfl, hsub, hmem⟩ := filterAuxM_ok hcs
  rw [List.append_nil, List.reverse_reverse]
  exact ⟨hsub, hmem⟩

/-! ## Lists in order -/

theorem nodup_eraseDups {α : Type} [BEq α] [LawfulBEq α] (l : List α) : l.eraseDups.Nodup := by
  -- What is left of the tail is shorter, but no part of the tail itself.
  induction h : l.length using Nat.strong_induction_on generalizing l with
  | _ n ih =>
    cases l with
    | nil => simp
    | cons a rest =>
      rw [List.eraseDups_cons, List.nodup_cons]
      refine ⟨by simp, ih _ ?_ _ rfl⟩
      rw [← h]
      exact Nat.lt_succ_of_le (List.length_filter_le _ _)

theorem eraseDups_sublist {α : Type} [BEq α] [LawfulBEq α] (l : List α) : l.eraseDups.Sublist l := by
  induction h : l.length using Nat.strong_induction_on generalizing l with
  | _ n ih =>
    cases l with
    | nil => simp
    | cons a rest =>
      rw [List.eraseDups_cons]
      refine List.Sublist.cons_cons a ((ih _ ?_ _ rfl).trans List.filter_sublist)
      rw [← h]
      exact Nat.lt_succ_of_le (List.length_filter_le _ _)

section Sorting

variable {α : Type} [LE α] [LT α] [DecidableLT α] [Std.IsLinearOrder α] [Std.LawfulOrderLT α]

theorem pairwise_sort (l : List α) :
    (l.mergeSort fun a b => !decide (b < a)).Pairwise (· ≤ ·) := by
  have hle : ∀ a b : α, (!decide (b < a)) = true ↔ a ≤ b := by simp [Std.not_lt]
  refine (List.pairwise_mergeSort (fun a b c hab hbc => ?_) (fun a b => ?_) l).imp
    fun h => (hle _ _).mp h
  · rw [hle] at *
    exact Std.le_trans hab hbc
  · rw [Bool.or_eq_true, hle, hle]
    exact Std.le_total

/-- The order in which elements come does not matter when they are sorted. -/
theorem sort_congr {a b : List α} (h : a.Perm b) :
    a.mergeSort (fun x y => !decide (y < x)) = b.mergeSort fun x y => !decide (y < x) :=
  ((List.mergeSort_perm a _).trans (h.trans (List.mergeSort_perm b _).symm)).eq_of_pairwise
    (fun _ _ _ _ => Std.le_antisymm) (pairwise_sort a) (pairwise_sort b)

end Sorting

theorem Location.mem_sorted {ls : List Location} {l : Location} : l ∈ sorted ls ↔ l ∈ ls := by
  unfold sorted
  rw [List.mem_eraseDups, List.mem_mergeSort]

/-- Only which places come in a list matters when they are sorted. -/
theorem Location.sorted_congr {a b : List Location} (h : ∀ l, l ∈ a ↔ l ∈ b) :
    sorted a = sorted b := by
  have hrises : ∀ ls : List Location, (sorted ls).Pairwise (· ≤ ·) := fun ls =>
    List.Pairwise.sublist (eraseDups_sublist _) (pairwise_sort ls)
  have hperm : (sorted a).Perm (sorted b) :=
    (List.perm_ext_iff_of_nodup (nodup_eraseDups _) (nodup_eraseDups _)).mpr fun l => by
      rw [← sorted, ← sorted, mem_sorted, mem_sorted, h]
  exact hperm.eq_of_pairwise (fun _ _ _ _ => Std.le_antisymm) (hrises a) (hrises b)

/-! ## Names -/

/-- All names on the disk lead down and have no slash in them. -/
def Disk.Named (d : Disk) : Prop := ∀ x ∈ d.entries, Location.Named x.1

instance (d : Disk) : Decidable d.Named := List.decidableBAll _ _

namespace Disk

variable {d : Disk} {l : Location}

theorem mem_children {n : String} (h : n ∈ d.children l) : ∃ x ∈ d.entries, n ∈ x.1 := by
  unfold children at h
  obtain ⟨x, hx, hn⟩ := List.mem_filterMap.mp h
  split at hn
  · next hbelow =>
    cases hn
    exact ⟨x, hx, Location.mem_below? hbelow List.mem_cons_self⟩
  · cases hn

theorem mem_directoriesBelow {names : List String} (h : names ∈ d.directoriesBelow l) {n : String}
    (hn : n ∈ names) : ∃ x ∈ d.entries, n ∈ x.1 := by
  unfold directoriesBelow at h
  rcases List.mem_cons.mp h with rfl | h
  · cases hn
  · obtain ⟨x, hx, he⟩ := List.mem_filterMap.mp h
    split at he
    · next hbelow _ =>
      cases he
      exact ⟨x, hx, Location.mem_below? hbelow hn⟩
    · cases he

end Disk

namespace Glob

variable {d : Disk} {root : Location}

theorem mem_of_fromEach {α : Type} {starts : List α} {f : α → Except Trouble (List (List String))}
    {found : List (List String)} (h : fromEach starts f = .ok found) {names : List String}
    (hn : names ∈ found) : ∃ a ∈ starts, ∃ some, f a = .ok some ∧ names ∈ some := by
  obtain ⟨lists, hlists, rfl⟩ := map_ok h
  obtain ⟨one, hone, hmem⟩ := List.mem_flatten.mp hn
  obtain ⟨a, ha, hf⟩ := mem_of_mapM_ok hlists hone
  exact ⟨a, ha, one, hf, hmem⟩

theorem fromEach_returns_iff {α : Type} {starts : List α}
    {f : α → Except Trouble (List (List String))} :
    (∃ found, fromEach starts f = .ok found) ↔ ∀ a ∈ starts, ∃ some, f a = .ok some := by
  rw [← mapM_returns_iff]
  unfold fromEach
  constructor
  · rintro ⟨found, h⟩
    obtain ⟨lists, hlists, -⟩ := map_ok h
    exact ⟨lists, hlists⟩
  · rintro ⟨lists, hlists⟩
    rw [hlists]
    exact ⟨_, rfl⟩

theorem mem_fromEach {α : Type} {starts : List α} {f : α → Except Trouble (List (List String))}
    {found : List (List String)} (h : fromEach starts f = .ok found) {names : List String} :
    names ∈ found ↔ ∃ a ∈ starts, ∃ some, f a = .ok some ∧ names ∈ some := by
  refine ⟨mem_of_fromEach h, ?_⟩
  rintro ⟨a, ha, one, hone, hmem⟩
  obtain ⟨lists, hlists, rfl⟩ := map_ok h
  obtain ⟨b, hb, hf⟩ := mapM_ok_mem hlists ha
  rw [hone] at hf
  cases hf
  exact List.mem_flatten.mpr ⟨one, hb, hmem⟩

theorem fromEach_map {α β : Type} (starts : List α) (g : α → β)
    (f : β → Except Trouble (List (List String))) :
    fromEach (starts.map g) f = fromEach starts fun a => f (g a) := by
  unfold fromEach
  rw [List.mapM_map]
  rfl

theorem fromEach_singleton {α : Type} (a : α) (f : α → Except Trouble (List (List String))) :
    fromEach [a] f = f a := by
  unfold fromEach
  rw [List.mapM_cons]
  cases f a with
  | error t => rfl
  | ok some => exact congrArg Except.ok (List.append_nil some)

/-! ## One part of a pattern -/

/-- No part is left, or one that takes the path as it is. -/
def isEnd : List GlobPart → Bool
  | [] => true
  | .here :: _ => true
  | _ => false

/-- A name leads on: it stands there, and is a directory where more parts follow. -/
def leadsOn (d : Disk) (root : Location) (rest : List GlobPart) (spelled : List String) (n : String) :
    Except Trouble Bool :=
  let p := placed root (spelled ++ [n])
  if rest.isEmpty then d.pathExists p else d.isDir p

/-- What a part adds to a path, for each way on that there is. -/
def waysOn (d : Disk) (root : Location) (spelled : List String) (rest : List GlobPart) :
    GlobPart → Except Trouble (List (List String))
  | .named n => (leadsOn d root rest spelled n).map fun leads => if leads then [[n]] else []
  | .matching w => .ok ((namesAt d root spelled w !rest.isEmpty).map ([·]))
  | .anyDepth => .ok (directoriesAt d root spelled)
  | .here => .ok []

variable {parts rest : List GlobPart} {part : GlobPart} {spelled names way : List String}
  {ways found : List (List String)}

theorem select_of_isEnd (hend : isEnd parts = true) : select d root parts spelled = .ok [spelled] := by
  unfold isEnd at hend
  split at hend
  · rfl
  · rfl
  · cases hend

theorem select_named {n : String} :
    select d root (.named n :: rest) spelled = do
      let fits ← leadsOn d root rest spelled n
      if fits then select d root rest (spelled ++ [n]) else return [] := by
  rw [select]
  unfold leadsOn
  dsimp only
  split
  · rfl
  · rfl

/-- A search goes on along each way that the next part leaves, and tidies up what that gives. -/
theorem select_cons (d : Disk) (root : Location) (spelled : List String)
    (hend : isEnd (part :: rest) = false) :
    ∃ tidy : List (List String) → List (List String), (∀ l names, names ∈ tidy l ↔ names ∈ l) ∧
      select d root (part :: rest) spelled =
        (waysOn d root spelled rest part >>= fun ways =>
          fromEach ways fun way => select d root rest (spelled ++ way)).map tidy := by
  have hid : ∀ x : Except Trouble (List (List String)), x = x.map id :=
    fun x => (congrFun Except.map_id x).symm
  cases part with
  | here => cases hend
  | named n =>
    refine ⟨id, fun _ _ => Iff.rfl, ?_⟩
    rw [← hid, select_named]
    unfold waysOn
    dsimp only
    rcases leadsOn d root rest spelled n with t | _ | _
    · rfl
    · rfl
    · exact (fromEach_singleton [n] fun way => select d root rest (spelled ++ way)).symm
  | matching w =>
    refine ⟨id, fun _ _ => Iff.rfl, ?_⟩
    rw [← hid, select]
    exact (fromEach_map _ _ fun way => select d root rest (spelled ++ way)).symm
  | anyDepth => exact ⟨List.eraseDups, fun _ _ => List.mem_eraseDups, rfl⟩

/-- A search that goes through has ways on, goes through on each, and gives what it gives there. -/
theorem select_ok (hend : isEnd (part :: rest) = false)
    (h : select d root (part :: rest) spelled = .ok found) :
    ∃ ways, waysOn d root spelled rest part = .ok ways ∧
      (∀ way ∈ ways, ∃ some, select d root rest (spelled ++ way) = .ok some) ∧
      ∀ names, names ∈ found ↔
        ∃ way ∈ ways, ∃ some, select d root rest (spelled ++ way) = .ok some ∧ names ∈ some := by
  obtain ⟨tidy, htidy, heq⟩ := select_cons d root spelled hend
  obtain ⟨all, hall, rfl⟩ := map_ok (heq.symm.trans h)
  obtain ⟨ways, hways, hfrom⟩ := bind_ok hall
  exact ⟨ways, hways, fromEach_returns_iff.mp ⟨all, hfrom⟩,
    fun names => (htidy all names).trans (mem_fromEach hfrom)⟩

theorem select_cons_returns_iff (hend : isEnd (part :: rest) = false) :
    (∃ found, select d root (part :: rest) spelled = .ok found) ↔
      ∃ ways, waysOn d root spelled rest part = .ok ways ∧
        ∀ way ∈ ways, ∃ some, select d root rest (spelled ++ way) = .ok some := by
  constructor
  · rintro ⟨found, h⟩
    obtain ⟨ways, hways, hall, -⟩ := select_ok hend h
    exact ⟨ways, hways, hall⟩
  · rintro ⟨ways, hways, hall⟩
    obtain ⟨tidy, -, heq⟩ := select_cons d root spelled hend
    obtain ⟨all, hfrom⟩ := fromEach_returns_iff.mpr hall
    refine ⟨tidy all, ?_⟩
    rw [heq, hways]
    exact congrArg (Except.map tidy) hfrom

/-- What a part adds stands on the disk, or is named by the part. -/
theorem mem_of_waysOn (h : waysOn d root spelled rest part = .ok ways) (hway : way ∈ ways)
    {n : String} (hn : n ∈ way) : (∃ x ∈ d.entries, n ∈ x.1) ∨ part = .named n := by
  cases part with
  | here =>
    cases h
    cases hway
  | named m =>
    obtain ⟨leads, -, rfl⟩ := map_ok h
    cases leads with
    | false => cases hway
    | true =>
      obtain rfl := List.mem_singleton.mp hway
      exact Or.inr (congrArg GlobPart.named (List.mem_singleton.mp hn).symm)
  | matching w =>
    cases h
    obtain ⟨m, hm, rfl⟩ := List.mem_map.mp hway
    obtain rfl := List.mem_singleton.mp hn
    unfold namesAt at hm
    split at hm
    · cases hm
    · exact Or.inl (Disk.mem_children (List.mem_of_mem_filter hm))
  | anyDepth =>
    cases h
    unfold directoriesAt at hway
    split at hway
    · cases hway
    · exact Or.inl (Disk.mem_directoriesBelow hway hn)

/-- The names of what is selected come from where the search started, from the disk, or from the
pattern. -/
theorem mem_of_select (h : select d root parts spelled = .ok found) (hnames : names ∈ found)
    {n : String} (hn : n ∈ names) :
    n ∈ spelled ∨ (∃ x ∈ d.entries, n ∈ x.1) ∨ .named n ∈ parts := by
  induction parts generalizing spelled found with
  | nil =>
    cases h
    rw [List.mem_singleton.mp hnames] at hn
    exact Or.inl hn
  | cons part rest ih =>
    cases hend : isEnd (part :: rest) with
    | true =>
      rw [select_of_isEnd hend] at h
      cases h
      rw [List.mem_singleton.mp hnames] at hn
      exact Or.inl hn
    | false =>
      obtain ⟨ways, hways, -, hfound⟩ := select_ok hend h
      obtain ⟨way, hway, some, hsome, hmem⟩ := (hfound names).mp hnames
      rcases ih hsome hmem with hn | hdisk | hnamed
      · rcases List.mem_append.mp hn with hn | hn
        · exact Or.inl hn
        · rcases mem_of_waysOn hways hway hn with hdisk | rfl
          · exact Or.inr (Or.inl hdisk)
          · exact Or.inr (Or.inr List.mem_cons_self)
      · exact Or.inr (Or.inl hdisk)
      · exact Or.inr (Or.inr (List.mem_cons_of_mem _ hnamed))

theorem mem_of_run {parts : List GlobPart} {found : List (List String)}
    (h : run d root parts = .ok found) {names : List String} (hnames : names ∈ found) {n : String}
    (hn : n ∈ names) : (∃ x ∈ d.entries, n ∈ x.1) ∨ .named n ∈ parts := by
  unfold run at h
  split at h
  · rcases mem_of_select h hnames hn with h | h
    · cases h
    · exact h
  · cases h
    cases hnames

/-- The names that a pattern looks up are parts of its path. -/
theorem named_of_parse {pattern : String} {parts : List GlobPart} (h : parse pattern = .ok parts)
    {n : String} (hn : .named n ∈ parts) : n ∈ (Path.ofString pattern).parts := by
  have hpart : ∀ {s : String} {g : GlobPart}, part s = .ok g → g = .named n → n = s := by
    intro s g hg he
    subst he
    unfold part at hg
    dsimp only at hg
    split at hg
    · cases hg
    · split at hg
      · cases hg
      · split at hg
        · cases hg
        · cases hg
          rfl
  unfold parse at h
  simp only at h
  split at h
  · cases h
  · split at h
    · cases h
    · split at h
      · split at h <;> cases h
      · obtain ⟨found, hfound, h⟩ := bind_ok h
        have hmem : .named n ∈ found := by
          split at h
          · cases h
            simpa using hn
          · cases h
            exact hn
        obtain ⟨s, hs, hg⟩ := mem_of_mapM_ok hfound hmem
        rwa [hpart hg rfl]

/-- The names in a pattern have no slash. -/
theorem slash_of_parse {pattern : String} {parts : List GlobPart} (h : parse pattern = .ok parts)
    {n : String} (hn : .named n ∈ parts) : '/' ∉ n.toList :=
  (Path.mem_partsOf (named_of_parse h hn)).2

end Glob

end Sourcebook
