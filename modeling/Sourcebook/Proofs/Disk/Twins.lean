-- Two disks that answer alike. A path reads the places on its way and no others; on a disk where
-- everything stands in directories, a plain path reads the one place that it leads to.
import Mathlib
import Sourcebook.Proofs.Disk.Making
import Sourcebook.Proofs.Disk.Standing

namespace Sourcebook

namespace Disk

variable {d d' : Disk} {l : Location} {p : Path}

/-! ## The same way on both disks -/

/-- Two disks have the same on the way of a path. -/
def AlikeOn (d d' : Disk) (p : Path) : Prop := ∀ k ∈ p.trail, d'.get? k = d.get? k

theorem AlikeOn.front {q : Path} (h : AlikeOn d d' p) (hq : q.parts <+: p.parts) : AlikeOn d d' q :=
  fun k hk => h k (Path.trail_subset hq hk)

theorem follow_congr {parts : List String} {start : Location}
    (h : ∀ spelled, spelled <+: parts →
      d'.get? (Location.walk start spelled) = d.get? (Location.walk start spelled)) :
    d'.follow start parts = d.follow start parts := by
  induction parts generalizing start with
  | nil => rfl
  | cons part rest ih =>
    have hstart : d'.get? start = d.get? start := h [] List.nil_prefix
    simp only [follow, hstart]
    rw [ih fun spelled hpre => h (part :: spelled) (List.cons_prefix_cons.mpr ⟨rfl, hpre⟩)]

theorem AlikeOn.follow (h : AlikeOn d d' p) : d'.follow [] p.parts = d.follow [] p.parts :=
  follow_congr fun spelled hpre => h _ (Path.mem_trail.mpr ⟨spelled, hpre, rfl⟩)

theorem AlikeOn.locate (h : AlikeOn d d' p) : d'.locate p = d.locate p := by
  unfold Disk.locate
  rw [h.follow]

theorem AlikeOn.find? (h : AlikeOn d d' p) : d'.find? p = d.find? p := by
  unfold Disk.find?
  rw [h.locate]
  split
  · rfl
  · split
    · next l hl => rw [locate_eq_normal hl, h _ (Path.normal_mem_trail p)]
    · rfl
    · rfl

theorem AlikeOn.read (h : AlikeOn d d' p) : d'.read p = d.read p := by
  unfold Disk.read
  rw [h.locate]
  cases hl : d.locate p with
  | error k => rfl
  | ok l =>
    simp only
    rw [locate_eq_normal hl, h _ (Path.normal_mem_trail p)]

theorem isFile_congr (h : d'.find? p = d.find? p) : d'.isFile p = d.isFile p := by
  unfold isFile
  rw [h]

theorem isDir_congr (h : d'.find? p = d.find? p) : d'.isDir p = d.isDir p := by
  unfold isDir
  rw [h]

theorem pathExists_congr (h : d'.find? p = d.find? p) : d'.pathExists p = d.pathExists p := by
  unfold pathExists
  rw [h]

/-! ## Plain paths -/

/-- Only a name that is too long is not followed for its length. -/
theorem follow_tooLong {parts : List String} {start : Location}
    (h : d.follow start parts = .error .tooLong) : ∃ n ∈ parts, maxName < n.utf8ByteSize := by
  induction parts generalizing start with
  | nil => cases h
  | cons part rest ih =>
    simp only [Disk.follow] at h
    split at h
    · cases h
    · cases h
    · split at h
      · next hsize => exact ⟨part, List.mem_cons_self, hsize⟩
      · obtain ⟨n, hn, hsize⟩ := ih h
        exact ⟨n, List.mem_cons_of_mem _ hn, hsize⟩

theorem locate_ne_tooLong (hs : p.Short) : d.locate p ≠ .error .tooLong := by
  intro h
  unfold Disk.locate at h
  rw [if_neg (Nat.not_le.mpr hs.text)] at h
  obtain ⟨n, hn, hsize⟩ := follow_tooLong h
  exact absurd (hs.names n hn) (Nat.not_le.mpr hsize)

/-- A search for a path that is not too long does not fail. -/
theorem find?_of_short (hs : p.Short) : ∃ e, d.find? p = .ok e := by
  unfold Disk.find?
  split
  · exact ⟨_, rfl⟩
  · split
    · exact ⟨_, rfl⟩
    · next h => exact absurd h (locate_ne_tooLong hs)
    · exact ⟨_, rfl⟩

/-- A short path without parent steps finds what stands at its place. -/
theorem find?_of_plain (hw : d.WellFormed) (hs : p.Short) (hup : ".." ∉ p.parts) :
    d.find? p = .ok (if p.hasNull then none else d.get? (p.normal [])) := by
  have hplace : p.normal [] = p.parts := by
    rw [Path.normal_eq, Location.walk_down hup, List.nil_append]
  unfold Disk.find?
  split
  · rfl
  · cases hl : d.locate p with
    | ok l => rw [locate_eq_normal hl]
    | error k =>
      -- The path does not lead on, so nothing can stand at its end.
      have hnone : d.get? (p.normal []) = none := by
        cases he : d.get? (p.normal []) with
        | none => rfl
        | some e =>
          rw [hplace] at he
          have hfollow : d.follow [] p.parts = .ok ([] ++ p.parts) ∨
              d.follow [] p.parts = .error .tooLong :=
            follow_of_stands hup fun k _ hk hne => hw.above he hk hne
          unfold Disk.locate at hl
          rw [if_neg (Nat.not_le.mpr hs.text)] at hl
          rcases hfollow with h | h
          · rw [h] at hl
            cases hl
          · obtain ⟨n, hn, hsize⟩ := follow_tooLong h
            exact absurd (hs.names n hn) (Nat.not_le.mpr hsize)
      rw [hnone]
      cases k with
      | tooLong => exact absurd hl (locate_ne_tooLong hs)
      | _ => rfl

/-- A file that is found can be read. -/
theorem read_of_find? {bytes : List UInt8} (h : d.find? p = .ok (some (.file bytes))) :
    d.read p = .ok bytes := by
  unfold Disk.find? at h
  split at h
  · cases h
  · split at h
    · next l hl =>
      unfold Disk.read
      simp only [hl, Except.ok.inj h]
    · cases h
    · cases h

/-! ## Paths that do not meet what changed -/

/-- A path whose search does not notice a change at the places `T`: its end is not among them, and
either it is short and has no parent step, or nothing on its way is among them. -/
structure Aloof (T : Location → Prop) (p : Path) : Prop where
  place : ¬ T (p.normal [])
  way : (p.Short ∧ ".." ∉ p.parts) ∨ ∀ k ∈ p.trail, ¬ T k

instance (T : Location → Prop) [DecidablePred T] (p : Path) : Decidable (Aloof T p) :=
  decidable_of_iff (¬ T (p.normal []) ∧ ((p.Short ∧ ".." ∉ p.parts) ∨ ∀ k ∈ p.trail, ¬ T k))
    ⟨fun h => ⟨h.1, h.2⟩, fun h => ⟨h.1, h.2⟩⟩

/-- Two disks on which everything stands in directories, and that differ at the places `T` alone. -/
structure Twins (T : Location → Prop) (d d' : Disk) : Prop where
  left : d.WellFormed
  right : d'.WellFormed
  same : ∀ k, ¬ T k → d'.get? k = d.get? k

namespace Twins

variable {T : Location → Prop}

theorem symm (h : Twins T d d') : Twins T d' d := ⟨h.right, h.left, fun k hk => (h.same k hk).symm⟩

/-- A path without parent steps to what stands at its end has the same way on both disks. -/
theorem alikeOn_down (h : Twins T d d') (hp : ¬ T (p.normal [])) (hup : ".." ∉ p.parts) {e : Entry}
    (he : d.get? (p.normal []) = some e) : AlikeOn d d' p := by
  have he' : d'.get? (p.normal []) = some e := (h.same _ hp).trans he
  have hplace : p.normal [] = p.parts := by
    rw [Path.normal_eq, Location.walk_down hup, List.nil_append]
  intro k hk
  obtain ⟨spelled, hpre, rfl⟩ := Path.mem_trail.mp hk
  rw [Location.walk_down fun hin => hup (hpre.subset hin), List.nil_append]
  by_cases hne : spelled = p.parts
  · rw [hne, ← hplace]
    exact h.same _ hp
  · rw [h.left.above he (hplace ▸ hpre) (hplace ▸ hne),
      h.right.above he' (hplace ▸ hpre) (hplace ▸ hne)]

/-- An aloof path that leads to what stands there has the same way on both disks. -/
theorem alikeOn (h : Twins T d d') (hp : Aloof T p) {e : Entry} (he : d.get? (p.normal []) = some e) :
    AlikeOn d d' p := by
  rcases hp.way with ⟨-, hup⟩ | hway
  · exact h.alikeOn_down hp.place hup he
  · exact fun k hk => h.same k (hway k hk)

/-- An aloof path that is too long meets nothing that changed. -/
theorem alikeOn_of_error (h : Twins T d d') (hp : Aloof T p) {t : Trouble}
    (he : d.find? p = .error t) : AlikeOn d d' p := by
  rcases hp.way with ⟨hs, -⟩ | hway
  · obtain ⟨e, hok⟩ := find?_of_short (d := d) hs
    rw [hok] at he
    cases he
  · exact fun k hk => h.same k (hway k hk)

/-- An aloof path finds the same on both disks. -/
theorem find? (h : Twins T d d') (hp : Aloof T p) : d'.find? p = d.find? p := by
  rcases hp.way with ⟨hs, hup⟩ | hway
  · rw [find?_of_plain h.left hs hup, find?_of_plain h.right hs hup, h.same _ hp.place]
  · exact AlikeOn.find? fun k hk => h.same k (hway k hk)

end Twins

end Disk

end Sourcebook
