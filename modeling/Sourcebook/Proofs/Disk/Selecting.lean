-- Searches over two disks that answer alike. A search is followed state by state: what it selects,
-- and what it asks for on the way, depends on the places on that way alone.
import Mathlib
import Sourcebook.Proofs.Disk.Searches
import Sourcebook.Proofs.Disk.Twins

namespace Sourcebook

/-! ## Disks that list what counts -/

/-- Every entry that is listed counts at its place, and no name is a parent step. -/
structure Disk.Listed (d : Disk) : Prop where
  counts : ∀ x ∈ d.entries, d.get? x.1 = some x.2
  down : ∀ x ∈ d.entries, ".." ∉ x.1

instance (d : Disk) : Decidable d.Listed :=
  decidable_of_iff ((∀ x ∈ d.entries, d.get? x.1 = some x.2) ∧ ∀ x ∈ d.entries, ".." ∉ x.1)
    ⟨fun h => ⟨h.1, h.2⟩, fun h => ⟨h.1, h.2⟩⟩

theorem Location.below?_eq_some {dir l : Location} {names : List String} :
    below? dir l = some names ↔ l = dir ++ names := by
  unfold below?
  split
  · next h =>
    obtain ⟨rest, rfl⟩ := List.isPrefixOf_iff_prefix.mp h
    rw [List.drop_left, Option.some.injEq, List.append_cancel_left_eq, eq_comm]
  · next h =>
    refine iff_of_false (fun h => nomatch h) ?_
    rintro rfl
    exact h (List.isPrefixOf_iff_prefix.mpr (List.prefix_append _ _))

namespace Disk

variable {d d' : Disk} {l : Location}

theorem mem_entries_of_get? {e : Entry} (hl : l ≠ []) (h : d.get? l = some e) : (l, e) ∈ d.entries := by
  unfold get? at h
  rw [if_neg hl, List.lookup_eq_some_iff] at h
  obtain ⟨front, back, hentries, -⟩ := h
  simp [hentries]

theorem isSome_get?_of_mem {x : Location × Entry} (h : x ∈ d.entries) : (d.get? x.1).isSome := by
  unfold get?
  split
  · rfl
  · rw [List.lookup_isSome_iff]
    exact ⟨x, h, beq_self_eq_true _⟩

/-- The names in a directory are those of the entries that stand in it. -/
theorem mem_children_iff {n : String} : n ∈ d.children l ↔ (d.get? (l ++ [n])).isSome := by
  unfold children
  rw [List.mem_filterMap]
  constructor
  · rintro ⟨x, hx, hn⟩
    split at hn
    · next name hbelow =>
      cases hn
      rw [← Location.below?_eq_some.mp hbelow]
      exact isSome_get?_of_mem hx
    · cases hn
  · intro h
    obtain ⟨e, he⟩ := Option.isSome_iff_exists.mp h
    refine ⟨(l ++ [n], e), mem_entries_of_get? (by simp) he, ?_⟩
    rw [Location.below?_eq_some.mpr rfl]

theorem mem_directoriesBelow_iff (hd : d.Listed) {names : List String} :
    names ∈ d.directoriesBelow l ↔ names = [] ∨ d.get? (l ++ names) = some .directory := by
  unfold directoriesBelow
  rw [List.mem_cons, List.mem_filterMap]
  refine or_congr_right' fun hne => ?_
  constructor
  · rintro ⟨x, hx, hn⟩
    split at hn
    · next name more hbelow hdir =>
      cases hn
      rw [← Location.below?_eq_some.mp hbelow, hd.counts x hx, hdir]
    · cases hn
  · intro h
    obtain ⟨name, more, rfl⟩ := List.exists_cons_of_ne_nil hne
    refine ⟨(l ++ name :: more, .directory), mem_entries_of_get? (by simp) h, ?_⟩
    rw [Location.below?_eq_some.mpr rfl]

theorem Listed.down_of_get? (hd : d.Listed) {e : Entry} (h : d.get? l = some e) : ".." ∉ l := by
  by_cases hl : l = []
  · simp [hl]
  · exact hd.down _ (mem_entries_of_get? hl h)

/-! ## Changes -/

theorem Listed.put (hd : d.Listed) (hl : l ≠ []) (hup : ".." ∉ l) (e : Entry) :
    (d.put l e).Listed where
  counts x hx := by
    rcases List.mem_cons.mp hx with rfl | hx
    · exact get?_put_self hl
    · obtain ⟨hmem, hne⟩ := List.mem_filter.mp hx
      rw [get?_put_ne (by simpa using hne)]
      exact hd.counts x hmem
  down x hx := by
    rcases List.mem_cons.mp hx with rfl | hx
    · exact hup
    · exact hd.down x (List.mem_of_mem_filter hx)

theorem Listed.removeTree (hd : d.Listed) (hl : l ≠ []) : (d.removeTree l).Listed where
  counts x hx := by
    obtain ⟨hmem, hout⟩ := List.mem_filter.mp hx
    rw [get?_removeTree hl, if_neg (by simpa only [Bool.not_eq_true, Bool.not_eq_true'] using hout)]
    exact hd.counts x hmem
  down x hx := hd.down x (List.mem_of_mem_filter hx)

end Disk

theorem Path.normal_down (p : Path) : ".." ∉ p.normal [] := by
  rw [normal_eq]
  exact fun h => (Location.mem_walk_nil h).2 rfl

namespace Disk

variable {d d' : Disk} {p : Path}

theorem Listed.makeDirectory (hd : d.Listed) (h : d.makeDirectory p = .ok d') : d'.Listed := by
  obtain ⟨-, -, hnone, rfl⟩ := makeDirectory_eq_ok.mp h
  exact hd.put (ne_nil_of_get?_none hnone) p.normal_down _

theorem Listed.write (hd : d.Listed) {bytes : List UInt8} (h : d.write p bytes = .ok d') :
    d'.Listed := by
  obtain ⟨-, hdir, rfl⟩ := write_eq_ok.mp h
  refine hd.put (fun hnil => hdir ?_) p.normal_down _
  rw [hnil]
  rfl

end Disk

namespace Glob

variable {d d' : Disk} {root : Location} {parts rest : List GlobPart} {part : GlobPart}
  {spelled names way : List String} {ways : List (List String)}

/-! ## The states of a search -/

/-- The states that a search comes through: the parts that are left, and the path so far. -/
def visited (d : Disk) (root : Location) :
    List GlobPart → List String → List (List GlobPart × List String)
  | [], spelled => [([], spelled)]
  | .here :: rest, spelled => [(.here :: rest, spelled)]
  | .named n :: rest, spelled =>
    (.named n :: rest, spelled) ::
      if leadsOn d root rest spelled n = .ok true then visited d root rest (spelled ++ [n]) else []
  | .matching w :: rest, spelled =>
    (.matching w :: rest, spelled) ::
      (namesAt d root spelled w !rest.isEmpty).flatMap fun n => visited d root rest (spelled ++ [n])
  | .anyDepth :: rest, spelled =>
    (.anyDepth :: rest, spelled) ::
      (directoriesAt d root spelled).flatMap fun below => visited d root rest (spelled ++ below)

/-- The path that a state asks the disk for, if its next part is a name. -/
def askedAt (root : Location) : List GlobPart × List String → Option Path
  | (.named n :: _, spelled) => some (placed root (spelled ++ [n]))
  | _ => none

/-- The paths that a search asks the disk for, by the names in its pattern. -/
def asked (d : Disk) (root : Location) (parts : List GlobPart) (spelled : List String) : List Path :=
  (visited d root parts spelled).filterMap (askedAt root)

theorem visited_of_isEnd (hend : isEnd parts = true) :
    visited d root parts spelled = [(parts, spelled)] := by
  unfold isEnd at hend
  split at hend
  · rfl
  · rfl
  · cases hend

/-- A search comes through its first state, and through what each way on leads it to. -/
theorem mem_visited_cons (hend : isEnd (part :: rest) = false) {q : List GlobPart × List String} :
    q ∈ visited d root (part :: rest) spelled ↔ q = (part :: rest, spelled) ∨
      ∃ ways, waysOn d root spelled rest part = .ok ways ∧
        ∃ way ∈ ways, q ∈ visited d root rest (spelled ++ way) := by
  cases part with
  | here => cases hend
  | named n =>
    rw [visited, List.mem_cons]
    unfold waysOn
    dsimp only
    refine or_congr_right ?_
    rcases leadsOn d root rest spelled n with t | _ | _
    · exact iff_of_false (fun h => nomatch h) fun ⟨_, h, _⟩ => nomatch h
    · simp [Except.map]
    · simp [Except.map]
  | matching w =>
    rw [visited, List.mem_cons]
    simp [waysOn]
  | anyDepth =>
    rw [visited, List.mem_cons]
    simp [waysOn]

theorem visited_spelled {q : List GlobPart × List String} (h : q ∈ visited d root parts spelled) :
    spelled <+: q.2 := by
  induction parts generalizing spelled with
  | nil =>
    rw [visited, List.mem_singleton] at h
    rw [h]
  | cons part rest ih =>
    cases hend : isEnd (part :: rest) with
    | true =>
      rw [visited_of_isEnd hend, List.mem_singleton] at h
      rw [h]
    | false =>
      rcases (mem_visited_cons hend).mp h with rfl | ⟨ways, -, way, -, h⟩
      · exact List.prefix_refl _
      · exact (List.prefix_append _ _).trans (ih h)

theorem leadsOn_returns_iff (rest : List GlobPart) {n : String} :
    (∃ b, leadsOn d root rest spelled n = .ok b) ↔
      ∃ e, d.find? (placed root (spelled ++ [n])) = .ok e := by
  unfold leadsOn Disk.pathExists Disk.isDir
  cases hfind : d.find? (placed root (spelled ++ [n])) with
  | error t =>
    refine iff_of_false ?_ fun ⟨e, h⟩ => nomatch h
    rintro ⟨b, h⟩
    dsimp only at h
    rw [hfind] at h
    split at h
    · cases h
    · cases h
  | ok e =>
    refine iff_of_true ?_ ⟨e, rfl⟩
    dsimp only
    rw [hfind]
    split
    · exact ⟨_, rfl⟩
    · exact ⟨_, rfl⟩

/-- The ways on can be told where the disk looks up the path that is asked for, if one is. -/
theorem waysOn_returns_iff :
    (∃ ways, waysOn d root spelled rest part = .ok ways) ↔
      ∀ p ∈ askedAt root (part :: rest, spelled), ∃ e, d.find? p = .ok e := by
  cases part with
  | here => exact iff_of_true ⟨_, rfl⟩ fun p hp => nomatch hp
  | named n =>
    simp only [askedAt, Option.mem_def, Option.some.injEq, forall_eq']
    rw [← leadsOn_returns_iff rest]
    constructor
    · rintro ⟨ways, h⟩
      obtain ⟨leads, hleads, -⟩ := map_ok h
      exact ⟨leads, hleads⟩
    · rintro ⟨leads, hleads⟩
      exact ⟨_, congrArg (Except.map _) hleads⟩
  | matching w => exact iff_of_true ⟨_, rfl⟩ fun p hp => nomatch hp
  | anyDepth => exact iff_of_true ⟨_, rfl⟩ fun p hp => nomatch hp

/-- What a search selects is where it ends. -/
theorem mem_select {found : List (List String)} (h : select d root parts spelled = .ok found) :
    names ∈ found ↔ ∃ q, isEnd q = true ∧ (q, names) ∈ visited d root parts spelled := by
  induction parts generalizing spelled found with
  | nil =>
    cases h
    simp [visited, isEnd]
  | cons part rest ih =>
    cases hend : isEnd (part :: rest) with
    | true =>
      rw [select_of_isEnd hend] at h
      cases h
      rw [visited_of_isEnd hend]
      simp [hend]
    | false =>
      obtain ⟨ways, hways, hall, hfound⟩ := select_ok hend h
      rw [hfound]
      constructor
      · rintro ⟨way, hway, some, hsome, hmem⟩
        obtain ⟨q, hq, hvisited⟩ := (ih hsome).mp hmem
        exact ⟨q, hq, (mem_visited_cons hend).mpr (Or.inr ⟨ways, hways, way, hway, hvisited⟩)⟩
      · rintro ⟨q, hq, hvisited⟩
        rcases (mem_visited_cons hend).mp hvisited with he | ⟨ways', hways', way, hway, hvisited⟩
        · rw [(Prod.mk.inj he).1, hend] at hq
          cases hq
        · obtain rfl : ways = ways' := Except.ok.inj (hways.symm.trans hways')
          obtain ⟨some, hsome⟩ := hall way hway
          exact ⟨way, hway, some, hsome, (ih hsome).mpr ⟨q, hq, hvisited⟩⟩

theorem asked_of_isEnd (hend : isEnd parts = true) : asked d root parts spelled = [] := by
  unfold asked
  rw [visited_of_isEnd hend]
  unfold isEnd at hend
  split at hend
  · rfl
  · rfl
  · cases hend

theorem mem_asked_cons (hend : isEnd (part :: rest) = false) {p : Path} :
    p ∈ asked d root (part :: rest) spelled ↔ p ∈ askedAt root (part :: rest, spelled) ∨
      ∃ ways, waysOn d root spelled rest part = .ok ways ∧
        ∃ way ∈ ways, p ∈ asked d root rest (spelled ++ way) := by
  unfold asked
  simp only [List.mem_filterMap, mem_visited_cons hend]
  constructor
  · rintro ⟨q, rfl | ⟨ways, hways, way, hway, hq⟩, hat⟩
    · exact Or.inl hat
    · exact Or.inr ⟨ways, hways, way, hway, q, hq, hat⟩
  · rintro (hat | ⟨ways, hways, way, hway, q, hq, hat⟩)
    · exact ⟨_, Or.inl rfl, hat⟩
    · exact ⟨q, Or.inr ⟨ways, hways, way, hway, hq⟩, hat⟩

/-- A search goes through when it can look up every path that it asks for. -/
theorem select_returns_iff :
    (∃ found, select d root parts spelled = .ok found) ↔
      ∀ p ∈ asked d root parts spelled, ∃ e, d.find? p = .ok e := by
  induction parts generalizing spelled with
  | nil => simp [select, asked, visited, askedAt]
  | cons part rest ih =>
    cases hend : isEnd (part :: rest) with
    | true =>
      rw [select_of_isEnd hend, asked_of_isEnd hend]
      exact iff_of_true ⟨_, rfl⟩ fun p hp => absurd hp List.not_mem_nil
    | false =>
      rw [select_cons_returns_iff hend]
      simp only [ih, mem_asked_cons hend]
      constructor
      · rintro ⟨ways, hways, hall⟩ p (hp | ⟨ways', hways', way, hway, hp⟩)
        · exact waysOn_returns_iff.mp ⟨ways, hways⟩ p hp
        · obtain rfl : ways = ways' := Except.ok.inj (hways.symm.trans hways')
          exact hall way hway p hp
      · intro h
        obtain ⟨ways, hways⟩ := waysOn_returns_iff.mpr fun p hp => h p (Or.inl hp)
        exact ⟨ways, hways, fun way hway p hp => h p (Or.inr ⟨ways, hways, way, hway, hp⟩)⟩

/-! ## The same search on another disk -/

theorem reached?_congr (h : Disk.AlikeOn d d' (placed root spelled)) :
    reached? d' root spelled = reached? d root spelled :=
  congrArg Except.toOption h.follow

/-- Where a search has come to is where its path leads. -/
theorem reached?_eq {l : Location} (h : reached? d root spelled = some l) :
    l = Location.walk [] (root ++ spelled) := by
  unfold reached? at h
  cases hf : d.follow [] (root ++ spelled) with
  | error k =>
    rw [hf] at h
    cases h
  | ok k =>
    rw [hf] at h
    cases h
    exact Disk.follow_eq_walk hf

theorem alikeOn_front {more : List String} (h : Disk.AlikeOn d d' (placed root names))
    (hmore : spelled ++ more <+: names) : Disk.AlikeOn d d' (placed root (spelled ++ more)) :=
  h.front ((List.prefix_append_right_inj root).mpr hmore)

/-- A place that a search goes down to is the same on both disks. -/
theorem get?_below {l : Location} {more : List String}
    (h : Disk.AlikeOn d d' (placed root (spelled ++ more)))
    (hl : l = Location.walk [] (root ++ spelled)) (hup : ".." ∉ more) :
    d'.get? (l ++ more) = d.get? (l ++ more) := by
  have hwalk : l ++ more = (placed root (spelled ++ more)).normal [] := by
    rw [Path.normal_eq, show (placed root (spelled ++ more)).parts = root ++ (spelled ++ more) from rfl,
      ← List.append_assoc, Location.walk_append, Location.walk_down hup, hl]
  rw [hwalk]
  exact h _ (Path.normal_mem_trail _)

theorem mem_namesAt_alike (hd : d.Listed) {w : List Char} {more : Bool} {n : String}
    (h : Disk.AlikeOn d d' (placed root (spelled ++ [n]))) (hn : n ∈ namesAt d root spelled w more) :
    n ∈ namesAt d' root spelled w more := by
  unfold namesAt at hn ⊢
  have hfront : Disk.AlikeOn d d' (placed root spelled) :=
    h.front ((List.prefix_append_right_inj root).mpr (List.prefix_append _ _))
  rw [reached?_congr hfront]
  split at hn
  · cases hn
  · next l hl =>
    obtain ⟨hchild, hfits⟩ := List.mem_filter.mp hn
    have hthere := Disk.mem_children_iff.mp hchild
    obtain ⟨e, he⟩ := Option.isSome_iff_exists.mp hthere
    have hup : ".." ∉ [n] := fun hup => hd.down_of_get? he (List.mem_append_right _ hup)
    have hsame := get?_below h (reached?_eq hl) hup
    refine List.mem_filter.mpr ⟨Disk.mem_children_iff.mpr (by rw [hsame]; exact hthere), ?_⟩
    unfold Disk.isDirAt at hfits ⊢
    rw [hsame]
    exact hfits

theorem mem_directoriesAt_alike (hd : d.Listed) (hd' : d'.Listed) {below : List String}
    (h : Disk.AlikeOn d d' (placed root (spelled ++ below)))
    (hn : below ∈ directoriesAt d root spelled) : below ∈ directoriesAt d' root spelled := by
  unfold directoriesAt at hn ⊢
  have hfront : Disk.AlikeOn d d' (placed root spelled) :=
    h.front ((List.prefix_append_right_inj root).mpr (List.prefix_append _ _))
  rw [reached?_congr hfront]
  split at hn
  · cases hn
  · next l hl =>
    rcases (Disk.mem_directoriesBelow_iff hd).mp hn with hnil | hdir
    · exact (Disk.mem_directoriesBelow_iff hd').mpr (Or.inl hnil)
    · have hup : ".." ∉ below := fun hup => hd.down_of_get? hdir (List.mem_append_right _ hup)
      refine (Disk.mem_directoriesBelow_iff hd').mpr (Or.inr ?_)
      rw [get?_below h (reached?_eq hl) hup]
      exact hdir

theorem leadsOn_congr {rest : List GlobPart} {n : String}
    (h : Disk.AlikeOn d d' (placed root (spelled ++ [n]))) :
    leadsOn d' root rest spelled n = leadsOn d root rest spelled n := by
  unfold leadsOn
  dsimp only
  rw [Disk.pathExists_congr h.find?, Disk.isDir_congr h.find?]

/-- A way on is one on another disk too, if the disks are alike there. -/
theorem waysOn_alike (hd : d.Listed) (hd' : d'.Listed)
    (h : Disk.AlikeOn d d' (placed root (spelled ++ way)))
    (hways : waysOn d root spelled rest part = .ok ways) (hway : way ∈ ways) :
    ∃ ways', waysOn d' root spelled rest part = .ok ways' ∧ way ∈ ways' := by
  cases part with
  | here =>
    cases hways
    cases hway
  | named n =>
    obtain ⟨leads, hleads, rfl⟩ := map_ok hways
    cases leads with
    | false => cases hway
    | true =>
      obtain rfl := List.mem_singleton.mp hway
      exact ⟨_, congrArg (Except.map _) ((leadsOn_congr h).trans hleads), hway⟩
  | matching w =>
    cases hways
    obtain ⟨n, hn, rfl⟩ := List.mem_map.mp hway
    exact ⟨_, rfl, List.mem_map_of_mem (mem_namesAt_alike hd h hn)⟩
  | anyDepth =>
    cases hways
    exact ⟨_, rfl, mem_directoriesAt_alike hd hd' h hway⟩

/-- A search comes to a state on another disk too, if the disks are alike on the way there. -/
theorem visited_alike (hd : d.Listed) (hd' : d'.Listed) {q : List GlobPart × List String}
    (h : Disk.AlikeOn d d' (placed root q.2)) (hq : q ∈ visited d root parts spelled) :
    q ∈ visited d' root parts spelled := by
  induction parts generalizing spelled with
  | nil => exact hq
  | cons part rest ih =>
    cases hend : isEnd (part :: rest) with
    | true =>
      rw [visited_of_isEnd hend] at hq ⊢
      exact hq
    | false =>
      rw [mem_visited_cons hend] at hq ⊢
      refine hq.imp_right fun ⟨ways, hways, way, hway, hq⟩ => ?_
      obtain ⟨ways', hways', hway'⟩ :=
        waysOn_alike hd hd' (alikeOn_front h (visited_spelled hq)) hways hway
      exact ⟨ways', hways', way, hway', ih hq⟩

theorem mem_asked_alike (hd : d.Listed) (hd' : d'.Listed) {p : Path} (h : Disk.AlikeOn d d' p)
    (hp : p ∈ asked d root parts spelled) : p ∈ asked d' root parts spelled := by
  unfold asked at hp ⊢
  obtain ⟨⟨q, names⟩, hq, hat⟩ := List.mem_filterMap.mp hp
  refine List.mem_filterMap.mpr ⟨(q, names), visited_alike hd hd' ?_ hq, hat⟩
  unfold askedAt at hat
  split at hat
  · next n rest from' he =>
    obtain ⟨rfl, rfl⟩ := Prod.mk.inj he
    cases hat
    exact h.front ((List.prefix_append_right_inj root).mpr (List.prefix_append _ _))
  · cases hat

/-! ## Files that a search finds -/

/-- A path is found when a file stands there and it is not passed over. -/
def isFound (d : Disk) (root : Location) (keep : List String → Bool) (spelled : List String) :
    Except Trouble Bool := do
  return (← d.isFile (placed root spelled)) && keep spelled

/-- The files that a pattern selects, without those that are passed over. -/
def find (d : Disk) (root : Location) (parts : List GlobPart) (keep : List String → Bool) :
    Except Trouble (List (List String)) := do
  (← run d root parts).filterM (isFound d root keep)

/-- A search ends at a path. -/
def Selects (d : Disk) (root : Location) (parts : List GlobPart) (names : List String) : Prop :=
  d.isDirAt root = true ∧ ∃ q, isEnd q = true ∧ (q, names) ∈ visited d root parts []

/-- What the outcome of a search rests on: the paths that it finds, and the paths for which it
fails. -/
structure RestsOn (d : Disk) (root : Location) (parts : List GlobPart) (keep : List String → Bool)
    (p : Path) : Prop where
  dir : d.isDirAt root = true
  path : (p ∈ asked d root parts [] ∧ ∃ t, d.find? p = .error t) ∨
    ∃ names, Selects d root parts names ∧ isFound d root keep names ≠ .ok false ∧
      p = placed root names

theorem run_returns_iff : (∃ all, run d root parts = .ok all) ↔
    (d.isDirAt root = true → ∀ p ∈ asked d root parts [], ∃ e, d.find? p = .ok e) := by
  unfold run
  split
  · next hroot =>
    rw [select_returns_iff]
    exact ⟨fun h _ => h, fun h => h hroot⟩
  · next hroot => exact iff_of_true ⟨[], rfl⟩ fun h => absurd h hroot

theorem mem_run {all : List (List String)} (h : run d root parts = .ok all) :
    names ∈ all ↔ Selects d root parts names := by
  unfold run at h
  unfold Selects
  split at h
  · next hroot => rw [mem_select h, hroot, eq_self_iff_true, true_and]
  · next hroot =>
    cases h
    exact iff_of_false (fun h => nomatch h) fun h => hroot h.1

theorem mem_find {keep : List String → Bool} {found : List (List String)}
    (h : find d root parts keep = .ok found) :
    names ∈ found ↔ Selects d root parts names ∧ isFound d root keep names = .ok true := by
  obtain ⟨all, hall, h⟩ := bind_ok h
  rw [(filterM_ok h).2, mem_run hall]

theorem isFound_true {keep : List String → Bool} (h : isFound d root keep names = .ok true) :
    ∃ e, d.get? ((placed root names).normal []) = some e := by
  obtain ⟨there, hthere, h⟩ := bind_ok h
  have hboth : (there && keep names) = true := Except.ok.inj h
  rw [Bool.and_eq_true] at hboth
  obtain ⟨rfl, -⟩ := hboth
  obtain ⟨bytes, hbytes⟩ := Disk.fileAt_of_isFile hthere
  exact ⟨_, Disk.fileAt_eq_some.mp hbytes⟩

theorem isFound_error {keep : List String → Bool} {t : Trouble}
    (h : isFound d root keep names = .error t) : d.find? (placed root names) = .error t := by
  unfold isFound Disk.isFile at h
  cases hfind : d.find? (placed root names) with
  | error u =>
    rw [hfind] at h
    cases h
    rfl
  | ok e =>
    rw [hfind] at h
    cases h

theorem isFound_congr {keep : List String → Bool} (h : Disk.AlikeOn d d' (placed root names)) :
    isFound d' root keep names = isFound d root keep names := by
  unfold isFound
  rw [Disk.isFile_congr h.find?]

/-- Where a search goes through, it rests on what it finds. -/
theorem RestsOn.of_find {keep : List String → Bool} {p : Path} {found : List (List String)}
    (h : RestsOn d root parts keep p) (hf : find d root parts keep = .ok found) :
    ∃ names ∈ found, p = placed root names := by
  obtain ⟨hdir, ⟨hasked, t, ht⟩ | ⟨names, hs, hn, rfl⟩⟩ := h
  · obtain ⟨all, hall, -⟩ := bind_ok hf
    obtain ⟨e, he⟩ := run_returns_iff.mp ⟨all, hall⟩ hdir p hasked
    rw [ht] at he
    cases he
  · obtain ⟨all, hall, hkept⟩ := bind_ok hf
    obtain ⟨b, hb⟩ := filterM_returns_iff.mp ⟨found, hkept⟩ names ((mem_run hall).mpr hs)
    cases b with
    | false => exact absurd hb hn
    | true => exact ⟨names, (mem_find hf).mpr ⟨hs, hb⟩, rfl⟩

section Again

variable {T : Location → Prop} {keep : List String → Bool}

theorem Selects.alike (hd : d.Listed) (hd' : d'.Listed) (hroot : d'.isDirAt root = d.isDirAt root)
    (h : Disk.AlikeOn d d' (placed root names)) (hs : Selects d root parts names) :
    Selects d' root parts names := by
  obtain ⟨hdir, q, hq, hvisited⟩ := hs
  exact ⟨by rw [hroot, hdir], q, hq, visited_alike hd hd' h hvisited⟩

/-- What is found on one disk is found on its twin, if the search only finds what is aloof. -/
theorem found_again (h : Disk.Twins T d d') (hd : d.Listed) (hd' : d'.Listed)
    (hroot : d'.isDirAt root = d.isDirAt root)
    (haloof : ∀ p, RestsOn d root parts keep p → Disk.Aloof T p)
    (hs : Selects d root parts names) (hf : isFound d root keep names = .ok true) :
    Selects d' root parts names ∧ isFound d' root keep names = .ok true := by
  have hp : Disk.Aloof T (placed root names) :=
    haloof _ ⟨hs.1, Or.inr ⟨names, hs, by simp [hf], rfl⟩⟩
  obtain ⟨e, he⟩ := isFound_true hf
  have halike := h.alikeOn hp he
  exact ⟨hs.alike hd hd' hroot halike, (isFound_congr halike).trans hf⟩

/-- A search that goes through on one disk goes through on its twin, and finds the same there. -/
theorem find_again (h : Disk.Twins T d d') (hd : d.Listed) (hd' : d'.Listed)
    (hroot : d'.isDirAt root = d.isDirAt root)
    (hleft : ∀ p, RestsOn d root parts keep p → Disk.Aloof T p)
    (hright : ∀ p, RestsOn d' root parts keep p → Disk.Aloof T p) {found : List (List String)}
    (hf : find d root parts keep = .ok found) :
    ∃ found', find d' root parts keep = .ok found' ∧ ∀ names, names ∈ found' ↔ names ∈ found := by
  obtain ⟨all, hall, hkept⟩ := bind_ok hf
  have hasked := run_returns_iff.mp ⟨all, hall⟩
  have hrun : ∃ all', run d' root parts = .ok all' := by
    refine run_returns_iff.mpr fun hdir p hp => ?_
    cases hfind : d'.find? p with
    | ok e => exact ⟨e, rfl⟩
    | error t =>
      -- A path that is too long meets nothing that changed, so the first search failed on it too.
      have halike := h.symm.alikeOn_of_error (hright p ⟨hdir, Or.inl ⟨hp, t, hfind⟩⟩) hfind
      obtain ⟨e, he⟩ := hasked (by rw [← hroot, hdir]) p (mem_asked_alike hd' hd halike hp)
      rw [halike.find?, hfind] at he
      cases he
  obtain ⟨all', hall'⟩ := hrun
  have hkept' : ∃ found', all'.filterM (isFound d' root keep) = .ok found' := by
    refine filterM_returns_iff.mpr fun names hnames => ?_
    cases hfound : isFound d' root keep names with
    | ok b => exact ⟨b, rfl⟩
    | error t =>
      have hs := (mem_run hall').mp hnames
      have hp := hright _ ⟨hs.1, Or.inr ⟨names, hs, by simp [hfound], rfl⟩⟩
      have halike := h.symm.alikeOn_of_error hp (isFound_error hfound)
      have hmem := (mem_run hall).mpr (hs.alike hd' hd hroot.symm halike)
      obtain ⟨b, hb⟩ := filterM_returns_iff.mp ⟨found, hkept⟩ names hmem
      rw [isFound_congr halike, hfound] at hb
      cases hb
  obtain ⟨found', hfound'⟩ := hkept'
  have hf' : find d' root parts keep = .ok found' := by
    unfold find
    rw [hall']
    exact hfound'
  refine ⟨found', hf', fun names => ?_⟩
  rw [mem_find hf, mem_find hf']
  exact ⟨fun ⟨hs, hn⟩ => found_again h.symm hd' hd hroot.symm hright hs hn,
    fun ⟨hs, hn⟩ => found_again h hd hd' hroot hleft hs hn⟩

end Again

end Glob

end Sourcebook
