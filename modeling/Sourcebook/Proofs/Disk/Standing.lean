-- What stands on a disk stands in directories, and so it stays when the disk is changed.
import Mathlib
import Sourcebook.Proofs.Disk.Files

namespace Sourcebook

namespace Disk

variable {d d' : Disk} {l : Location} {p : Path}

/-! ## Places that stand -/

/-- Every place above a place that stands is a directory. -/
theorem WellFormed.above (h : d.WellFormed) {l : Location} {e : Entry} (hl : d.get? l = some e)
    {dir : Location} (hdir : dir <+: l) (hne : dir ≠ l) : d.get? dir = some .directory := by
  induction l using List.reverseRecOn generalizing e with
  | nil => exact absurd (List.prefix_nil.mp hdir) hne
  | append_singleton l n ih =>
    have hparent := h.parents _ e hl (by simp)
    rw [List.dropLast_concat] at hparent
    rcases List.prefix_concat_iff.mp hdir with rfl | hdir
    · exact absurd rfl hne
    · by_cases he : dir = l
      · rw [he]
        exact hparent
      · exact ih hparent hdir he

/-- On a disk of finitely many entries it is enough to look at them. -/
theorem wellFormed_of_entries
    (h : ∀ x ∈ d.entries, x.1 ≠ [] → d.get? x.1.dropLast = some .directory) : d.WellFormed where
  parents l e hl hne := by
    unfold get? at hl
    rw [if_neg hne, List.lookup_eq_some_iff] at hl
    obtain ⟨front, back, hentries, -⟩ := hl
    exact h (l, e) (by simp [hentries]) hne

/-- A place below directories is followed to, unless a name on the way is too long. -/
theorem follow_of_stands {parts : List String} {start : Location} (hparts : ".." ∉ parts)
    (h : ∀ k, start <+: k → k <+: start ++ parts → k ≠ start ++ parts → d.get? k = some .directory) :
    d.follow start parts = .ok (start ++ parts) ∨ d.follow start parts = .error .tooLong := by
  induction parts generalizing start with
  | nil => exact Or.inl (by simp [follow])
  | cons part rest ih =>
    rw [List.mem_cons, not_or] at hparts
    have hstart : d.get? start = some .directory :=
      h start (List.prefix_refl _) (List.prefix_append _ _) (by simp)
    have hstep : Location.step start part = start ++ [part] := by
      unfold Location.step
      rw [if_neg (by simpa using Ne.symm hparts.1)]
    simp only [follow, hstart]
    split
    · exact Or.inr rfl
    · rw [hstep]
      have happend : start ++ [part] ++ rest = start ++ part :: rest := by simp
      rw [← happend] at h ⊢
      exact ih hparts.2 fun k hk => h k ((List.prefix_append _ _).trans hk)

/-! ## Changes -/

/-- The way that a path follows ends in a directory. -/
theorem WellFormed.follow (h : d.WellFormed) {parts : List String} {start : Location}
    (hstart : d.get? start.dropLast = some .directory) (hf : d.follow start parts = .ok l) :
    d.get? l.dropLast = some .directory := by
  induction parts generalizing start with
  | nil =>
    cases hf
    exact hstart
  | cons part rest ih =>
    simp only [Disk.follow] at hf
    split at hf
    · cases hf
    · cases hf
    · next hdir =>
      split at hf
      · cases hf
      · refine ih ?_ hf
        unfold Location.step
        split
        · by_cases hne : start.dropLast.dropLast = start.dropLast
          · rw [hne]
            exact hstart
          · exact h.above hstart (List.dropLast_prefix _) hne
        · rw [List.dropLast_concat]
          exact hdir

theorem WellFormed.locate (h : d.WellFormed) (hl : d.locate p = .ok l) :
    d.get? l.dropLast = some .directory := by
  unfold Disk.locate at hl
  split at hl
  · cases hl
  · exact h.follow rfl hl

theorem WellFormed.put (h : d.WellFormed) (hl : d.get? l.dropLast = some .directory) {e : Entry}
    (he : e = .directory ∨ d.get? l ≠ some .directory) : (d.put l e).WellFormed where
  parents k f hk hne := by
    by_cases hnil : l = []
    · have hsame : ∀ m, (d.put l e).get? m = d.get? m := by
        intro m
        by_cases hm : m = []
        · rw [hm]
          rfl
        · exact get?_put_ne (hnil ▸ hm)
      rw [hsame] at hk ⊢
      exact h.parents k f hk hne
    · by_cases hkl : k = l
      · rw [hkl, get?_put_ne]
        · exact hl
        · intro he
          have := congrArg List.length he
          rw [List.length_dropLast] at this
          exact hnil (List.length_eq_zero_iff.mp (by omega))
      · rw [get?_put_ne hkl] at hk
        have hparent := h.parents k f hk hne
        by_cases hkd : k.dropLast = l
        · rw [hkd] at hparent ⊢
          rw [get?_put_self hnil]
          rcases he with rfl | he
          · rfl
          · exact absurd hparent he
        · rw [get?_put_ne hkd]
          exact hparent

theorem WellFormed.removeTree (h : d.WellFormed) (hl : l ≠ []) : (d.removeTree l).WellFormed where
  parents k f hk hne := by
    rw [get?_removeTree hl] at hk ⊢
    split at hk
    · cases hk
    · next hout =>
      rw [if_neg]
      · exact h.parents k f hk hne
      · rw [List.isPrefixOf_iff_prefix] at hout ⊢
        exact fun hp => hout (hp.trans (List.dropLast_prefix k))

theorem WellFormed.makeDirectory (h : d.WellFormed) (hm : d.makeDirectory p = .ok d') :
    d'.WellFormed := by
  obtain ⟨hl, -, -, rfl⟩ := makeDirectory_eq_ok.mp hm
  exact h.put (h.locate hl) (Or.inl rfl)

theorem WellFormed.write (h : d.WellFormed) {bytes : List UInt8} (hw : d.write p bytes = .ok d') :
    d'.WellFormed := by
  obtain ⟨hl, hdir, rfl⟩ := write_eq_ok.mp hw
  exact h.put (h.locate hl) (Or.inr hdir)

end Disk

end Sourcebook
