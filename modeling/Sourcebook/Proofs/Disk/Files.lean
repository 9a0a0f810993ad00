-- The files of a disk: where a path leads to, and what each change of the disk does to the
-- file at one place.
import Mathlib
import Sourcebook.Disk.Basic

namespace Sourcebook

namespace Disk

variable {d d' : Disk} {l : Location} {p : Path}

/-- The bytes of the file at a place. -/
def fileAt (d : Disk) (l : Location) : Option (List UInt8) :=
  match d.get? l with
  | some (.file bytes) => some bytes
  | _ => none

theorem fileAt_eq_some {bytes : List UInt8} :
    d.fileAt l = some bytes ↔ d.get? l = some (.file bytes) := by
  unfold fileAt
  split
  · next b hb => simp [hb]
  · next hne =>
    simp only [reduceCtorEq, false_iff]
    exact hne bytes

theorem fileAt_congr (h : d.get? l = d'.get? l) : d.fileAt l = d'.fileAt l := by
  unfold fileAt
  rw [h]

/-! ## Where a path leads to -/

theorem follow_eq_walk {parts : List String} {start : Location}
    (h : d.follow start parts = .ok l) : l = Location.walk start parts := by
  induction parts generalizing start with
  | nil =>
    simp only [follow, Except.ok.injEq] at h
    exact h.symm
  | cons part rest ih =>
    simp only [follow] at h
    split at h
    · cases h
    · cases h
    · split at h
      · cases h
      · exact ih h

/-- A path leads to the place that is written, where it leads anywhere. -/
theorem locate_eq_normal (h : d.locate p = .ok l) : l = p.normal [] := by
  unfold locate at h
  split at h
  · cases h
  · have hwalk := follow_eq_walk h
    unfold Path.normal
    split <;> exact hwalk

theorem find?_of_isFile (h : d.isFile p = .ok true) : ∃ bytes, d.find? p = .ok (some (.file bytes)) := by
  unfold isFile at h
  cases hfind : d.find? p with
  | error t =>
    rw [hfind] at h
    cases h
  | ok e =>
    rw [hfind] at h
    obtain _ | (_ | bytes) := e
    · cases h
    · cases h
    · exact ⟨bytes, rfl⟩

/-- A path to a file that is found is a path to the file at the place that is written. -/
theorem fileAt_of_isFile (h : d.isFile p = .ok true) : ∃ bytes, d.fileAt (p.normal []) = some bytes := by
  obtain ⟨bytes, hfind⟩ := find?_of_isFile h
  unfold find? at hfind
  split at hfind
  · cases hfind
  · split at hfind
    · next m hm =>
      obtain rfl := locate_eq_normal hm
      exact ⟨bytes, fileAt_eq_some.mpr (Except.ok.inj hfind)⟩
    · cases hfind
    · cases hfind

/-! ## Changes -/

theorem lookup_filter_ne {entries : List (Location × Entry)} {k : Location} (h : k ≠ l) :
    (entries.filter (fun x => x.1 != l)).lookup k = entries.lookup k := by
  induction entries with
  | nil => rfl
  | cons x rest ih =>
    obtain ⟨m, e⟩ := x
    by_cases hm : m = l
    · subst hm
      have hk : (k == m) = false := by simpa using h
      simp only [List.filter_cons, bne_self_eq_false, Bool.false_eq_true, if_false, ih,
        List.lookup_cons, hk]
    · have hkeep : (m != l) = true := by simpa using hm
      simp only [List.filter_cons, hkeep, if_true, List.lookup_cons, ih]

theorem get?_put_ne {k : Location} {e : Entry} (h : k ≠ l) : (d.put l e).get? k = d.get? k := by
  have hk : (k == l) = false := by simpa using h
  unfold get? put
  simp only [List.lookup_cons, hk, lookup_filter_ne h]

theorem get?_put_self {e : Entry} (h : l ≠ []) : (d.put l e).get? l = some e := by
  unfold get? put
  rw [if_neg h, List.lookup_cons_self]

theorem lookup_filter_prefix {entries : List (Location × Entry)} {k : Location} :
    (entries.filter (fun x => !l.isPrefixOf x.1)).lookup k =
      if l.isPrefixOf k then none else entries.lookup k := by
  induction entries with
  | nil => simp
  | cons x rest ih =>
    obtain ⟨m, e⟩ := x
    by_cases hk : k = m
    · subst hk
      cases hl : l.isPrefixOf k with
      | true => simpa [hl] using ih
      | false => simp [hl]
    · have hkm : (k == m) = false := by simpa using hk
      cases hl : l.isPrefixOf m with
      | true => simpa [hl, List.lookup_cons, hkm] using ih
      | false => simpa [hl, List.lookup_cons, hkm] using ih

/-- Taking away a place takes away what is below it, and nothing else. -/
theorem get?_removeTree (h : l ≠ []) (k : Location) :
    (d.removeTree l).get? k = if l.isPrefixOf k then none else d.get? k := by
  unfold get? removeTree
  by_cases hk : k = []
  · subst hk
    have hl : l.isPrefixOf [] = false := by
      cases l with
      | nil => exact absurd rfl h
      | cons a l => rfl
    simp [hl]
  · simp only [if_neg hk, lookup_filter_prefix]

theorem fileAt_removeTree (h : l ≠ []) (k : Location) :
    (d.removeTree l).fileAt k = if l.isPrefixOf k then none else d.fileAt k := by
  unfold fileAt
  rw [get?_removeTree h]
  cases l.isPrefixOf k with
  | true => rfl
  | false => rfl

/-- A directory is made where the path leads on and nothing stands at its end. -/
theorem makeDirectory_eq_ok :
    d.makeDirectory p = .ok d' ↔ d.locate p = .ok (p.normal []) ∧ p.parts.getLast? ≠ some ".." ∧
      d.get? (p.normal []) = none ∧ d' = d.put (p.normal []) .directory := by
  unfold makeDirectory target
  cases hl : d.locate p with
  | error k => exact iff_of_false (fun h => nomatch h) fun h => nomatch h.1
  | ok l =>
    obtain rfl := locate_eq_normal hl
    simp only [Except.mapError, bind, Except.bind, Bool.or_eq_true, beq_iff_eq, true_and]
    split
    · next htaken =>
      refine iff_of_false (fun h => nomatch h) fun h => ?_
      rcases htaken with hup | hthere
      · exact h.1 hup
      · rw [h.2.1] at hthere
        cases hthere
    · next hfree =>
      rw [not_or, Bool.not_eq_true, Option.isSome_eq_false_iff, Option.isNone_iff_eq_none] at hfree
      rw [Except.ok.injEq]
      exact ⟨fun h => ⟨hfree.1, hfree.2, h.symm⟩, fun h => h.2.2.symm⟩

theorem ne_nil_of_get?_none (h : d.get? l = none) : l ≠ [] := by
  rintro rfl
  simp [get?] at h

theorem get?_makeDirectory (h : d.makeDirectory p = .ok d') (k : Location) :
    d'.get? k = if k = p.normal [] then some .directory else d.get? k := by
  obtain ⟨-, -, hnone, rfl⟩ := makeDirectory_eq_ok.mp h
  split
  · next hk =>
    rw [hk]
    exact get?_put_self (ne_nil_of_get?_none hnone)
  · next hk => exact get?_put_ne hk

theorem fileAt_makeDirectory (h : d.makeDirectory p = .ok d') (k : Location) :
    d'.fileAt k = d.fileAt k := by
  have hget := get?_makeDirectory h k
  by_cases hk : k = p.normal []
  · rw [if_pos hk] at hget
    unfold fileAt
    rw [hget, hk, (makeDirectory_eq_ok.mp h).2.2.1]
  · rw [if_neg hk] at hget
    exact fileAt_congr hget

@[simp] theorem settle_fst (d : Disk) (p : Path) (t : Trouble) : (d.settle p t).1 = d := by
  unfold settle
  split
  · rfl
  · rfl

theorem settle_of_isDir (h : d.isDir p = .ok true) (t : Trouble) : d.settle p t = (d, none) := by
  unfold settle
  rw [h]
  rfl

theorem settle_eq_none {t : Trouble} (h : d.settle p t = (d', none)) :
    d' = d ∧ d.isDir p = .ok true := by
  unfold settle at h
  split at h
  · next there hthere =>
    cases there with
    | false => cases h
    | true =>
      cases h
      exact ⟨rfl, hthere⟩
  · cases h

/-- What every directory that is made leaves so stays so, also where the last one fails. -/
theorem makeDirectoriesFrom_keeps {P : Disk → Prop} {root : PathRoot} {parts : List String}
    (hone : ∀ {a b : Disk} {spelled : List String}, spelled <+: parts.reverse →
      a.makeDirectory ⟨root, spelled⟩ = .ok b → P a → P b)
    (h : P d) : P (makeDirectoriesFrom root d parts).1 := by
  induction parts generalizing d with
  | nil => exact h
  | cons part above ih =>
    have habove : P (makeDirectoriesFrom root d above).1 := by
      refine ih (fun hpre hmake ha => hone (hpre.trans ?_) hmake ha) h
      rw [List.reverse_cons]
      exact List.prefix_append _ _
    simp only [makeDirectoriesFrom]
    split
    · next b hb => exact hone (List.prefix_refl _) hb h
    · split
      · split
        · next b t hb =>
          rw [hb] at habove
          exact habove
        · next b hb =>
          rw [hb] at habove
          split
          · next c hc => exact hone (List.prefix_refl _) hc habove
          · split
            · exact habove
            · rw [settle_fst]
              exact habove
      · rw [settle_fst]
        exact h

theorem layDirectories_keeps {P : Disk → Prop}
    (hone : ∀ {a b : Disk} {spelled : List String}, spelled <+: p.parts →
      a.makeDirectory ⟨p.root, spelled⟩ = .ok b → P a → P b)
    (h : P d) : P (d.layDirectories p).1 :=
  makeDirectoriesFrom_keeps (fun hpre => hone (by rwa [List.reverse_reverse] at hpre)) h

/-- Making directories leaves every file as it is. -/
theorem fileAt_layDirectories (d : Disk) (p : Path) (k : Location) :
    (d.layDirectories p).1.fileAt k = d.fileAt k :=
  layDirectories_keeps (P := fun a => a.fileAt k = d.fileAt k)
    (fun _ hmake ha => (fileAt_makeDirectory hmake k).trans ha) rfl

/-- A file is written where the path leads on and no directory stands at its end. -/
theorem write_eq_ok {bytes : List UInt8} :
    d.write p bytes = .ok d' ↔ d.locate p = .ok (p.normal []) ∧
      d.get? (p.normal []) ≠ some .directory ∧ d' = d.put (p.normal []) (.file bytes) := by
  unfold write target
  cases hl : d.locate p with
  | error k => exact iff_of_false (fun h => nomatch h) fun h => nomatch h.1
  | ok l =>
    obtain rfl := locate_eq_normal hl
    simp only [Except.mapError, bind, Except.bind, isDirAt, beq_iff_eq, true_and]
    split
    · next hdir => exact iff_of_false (fun h => nomatch h) fun h => h.1 hdir
    · next hdir =>
      rw [Except.ok.injEq]
      exact ⟨fun h => ⟨hdir, h.symm⟩, fun h => h.2.symm⟩

/-- Writing changes what stands at the place that is written, and nothing else. -/
theorem get?_write {bytes : List UInt8} (h : d.write p bytes = .ok d') (k : Location) :
    d'.get? k = if k = p.normal [] then some (.file bytes) else d.get? k := by
  obtain ⟨-, hdir, rfl⟩ := write_eq_ok.mp h
  split
  · next hk =>
    rw [hk]
    refine get?_put_self fun hnil => hdir ?_
    rw [hnil]
    rfl
  · next hk => exact get?_put_ne hk

theorem fileAt_write {bytes : List UInt8} (h : d.write p bytes = .ok d') (k : Location) :
    d'.fileAt k = if p.normal [] = k then some bytes else d.fileAt k := by
  have hget := get?_write h k
  split
  · next hk =>
    rw [if_pos hk.symm] at hget
    exact fileAt_eq_some.mpr hget
  · next hk =>
    rw [if_neg (Ne.symm hk)] at hget
    exact fileAt_congr hget

end Disk

end Sourcebook
