-- What a lookup sees when one file is taken away: at the paths that lead to it nothing, and at
-- every other path what it saw before. A file may have entries below it in the list of a disk; no
-- path leads to them, with the file and without it.
import Mathlib
import Sourcebook.Proofs.Disk.Files

namespace Sourcebook

namespace Disk

variable {d : Disk} {l : Location} {p : Path} {bytes : List UInt8}

/-- A path leads to a place. -/
def Leads (d : Disk) (p : Path) (l : Location) : Prop := p.hasNull = false ∧ d.locate p = .ok l

instance (d : Disk) (p : Path) (l : Location) : Decidable (Leads d p l) :=
  inferInstanceAs (Decidable (_ ∧ _))

theorem ne_nil_of_fileAt (h : d.fileAt l = some bytes) : l ≠ [] := by
  rintro rfl
  rw [fileAt_eq_some] at h
  simp [get?] at h

/-- A step from a directory does not lead below a file. -/
theorem prefix_of_step {start : Location} {part : String} (hdir : d.get? start = some .directory)
    (hl : d.fileAt l = some bytes) (hs : l <+: start → start = l)
    (h : l <+: Location.step start part) : Location.step start part = l := by
  have hnot : ¬ l <+: start := by
    intro hp
    rw [hs hp, fileAt_eq_some.mp hl] at hdir
    cases hdir
  unfold Location.step at h ⊢
  split at h
  · exact absurd (h.trans (List.dropLast_prefix start)) hnot
  · rcases List.prefix_concat_iff.mp h with he | hp
    · next hup =>
      rw [if_neg hup]
      exact he.symm
    · exact absurd hp hnot

/-- Without a file a way leads where it led, except that a way through the file finds nothing there
instead of a file. -/
theorem follow_removeTree (hl : d.fileAt l = some bytes) {parts : List String} {start : Location}
    (hs : l <+: start → start = l) :
    ((d.removeTree l).follow start parts = d.follow start parts ∧
      ∀ k, d.follow start parts = .ok k → l <+: k → k = l) ∨
    ((d.removeTree l).follow start parts = .error .missing ∧
      d.follow start parts = .error .notDirectory) := by
  induction parts generalizing start with
  | nil =>
    refine .inl ⟨rfl, fun k hk => ?_⟩
    obtain rfl : start = k := Except.ok.inj hk
    exact hs
  | cons part rest ih =>
    simp only [follow, get?_removeTree (ne_nil_of_fileAt hl)]
    by_cases hp : l <+: start
    · obtain rfl := hs hp
      right
      rw [fileAt_eq_some.mp hl]
      simp
    · rw [if_neg (by simpa using hp)]
      cases hget : d.get? start with
      | none => exact .inl ⟨rfl, fun k hk => by cases hk⟩
      | some e =>
        cases e with
        | file _ => exact .inl ⟨rfl, fun k hk => by cases hk⟩
        | directory =>
          dsimp only
          split
          · exact .inl ⟨rfl, fun k hk => by cases hk⟩
          · exact ih (prefix_of_step hget hl hs)

theorem find?_of_leads (hl : d.fileAt l = some bytes) (h : d.Leads p l) :
    d.find? p = .ok (some (.file bytes)) := by
  unfold find?
  rw [h.1, h.2, ← fileAt_eq_some.mp hl]
  rfl

theorem find?_removeTree (hl : d.fileAt l = some bytes) (p : Path) :
    (d.removeTree l).find? p = if d.Leads p l then .ok none else d.find? p := by
  have hne := ne_nil_of_fileAt hl
  by_cases hnull : p.hasNull = true
  · simp [find?, Leads, hnull]
  by_cases hlong : pathLimit ≤ p.text.utf8ByteSize
  · simp [find?, Leads, locate, hlong]
  simp only [find?, Leads, locate, hnull, hlong, if_false, Bool.false_eq_true]
  have hroot : l <+: [] → [] = l := fun h => absurd (List.prefix_nil.mp h) hne
  rcases @follow_removeTree d l bytes hl p.parts [] hroot with ⟨hsame, hend⟩ | ⟨hgone, hfile⟩
  · rw [hsame]
    cases hk : d.follow [] p.parts with
    | error k => cases k <;> simp
    | ok k =>
      simp only [Except.ok.injEq, get?_removeTree hne]
      by_cases he : k = l
      · simp [he]
      · rw [if_neg (by simpa using fun h => he (hend k hk h))]
        simp [he]
  · simp [hgone, hfile]

end Disk

end Sourcebook
