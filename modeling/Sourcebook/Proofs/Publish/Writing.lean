-- When texts can be written. One text needs a way without files and a place that is no directory;
-- texts in turn need also that none of them comes to stand where another one needs a directory.
import Mathlib
import Sourcebook.Proofs.Publish.Changes

namespace Sourcebook

namespace Publish

variable {d d' : Disk} {p q : Path} {text : String} {texts : List (Path × String)}

/-- A text can be written at a path. -/
structure Writable (d : Disk) (p : Path) : Prop where
  null : p.hasNull = false
  short : p.Short
  way : ∀ k ∈ p.parent.trail, d.fileAt k = none
  place : d.get? (p.normal []) ≠ some .directory
  apart : p.normal [] ∉ p.parent.trail

instance (d : Disk) (p : Path) : Decidable (Writable d p) :=
  decidable_of_iff (p.hasNull = false ∧ p.Short ∧ (∀ k ∈ p.parent.trail, d.fileAt k = none) ∧
      d.get? (p.normal []) ≠ some .directory ∧ ∀ k ∈ p.parent.trail, k ≠ p.normal [])
    ⟨fun ⟨h1, h2, h3, h4, h5⟩ => ⟨h1, h2, h3, h4, fun h => h5 _ h rfl⟩,
      fun h => ⟨h.null, h.short, h.way, h.place, fun _ hk he => h.apart (he ▸ hk)⟩⟩

/-- What is spelled before the end of a path is spelled by the path of its directory. -/
theorem prefix_parent {spelled : List String} :
    spelled <+: p.parts ∧ spelled ≠ p.parts → spelled <+: p.parent.parts := by
  rintro ⟨hpre, hne⟩
  rcases List.eq_nil_or_concat' p.parts with hnil | ⟨front, last, hparts⟩
  · rw [hnil] at hpre hne
    exact absurd (List.prefix_nil.mp hpre) hne
  · unfold Path.parent
    rw [hparts] at hpre hne ⊢
    rw [List.dropLast_concat]
    exact (List.prefix_concat_iff.mp hpre).resolve_left hne

theorem hasNull_parent (h : p.hasNull = false) : p.parent.hasNull = false := by
  unfold Path.hasNull at h ⊢
  rw [List.any_eq_false] at h ⊢
  exact fun n hn => h n (List.mem_of_mem_dropLast hn)

theorem short_parent (h : p.Short) : p.parent.Short := by
  obtain ⟨root, parts⟩ := p
  rcases List.eq_nil_or_concat' parts with rfl | ⟨front, last, rfl⟩
  · exact h
  · unfold Path.parent
    rw [List.dropLast_concat]
    exact h.front

theorem writable_of_writeText (h : writeText d p text = (d', .ok ())) : Writable d p := by
  rcases writeText_cases d p text with ⟨-, hw⟩ | ⟨e, -, hw⟩ | ⟨hnull, d1, d2, hlay, hw, -⟩
  · rw [hw] at h
    cases h
  · rw [hw] at h
    cases h
  · have hmade := Disk.layDirectories_made hlay
    obtain ⟨hl, hdir, -⟩ := Disk.write_eq_ok.mp hw
    refine ⟨hnull, (Disk.locate_eq_ok.mp hl).2.1, Disk.layDirectories_fileless hlay, fun hbefore => ?_,
      fun hin => hdir (hmade.trail _ hin)⟩
    have hkept := (Disk.layDirectories_keptAt d p.parent _).stands hbefore
    rw [hlay] at hkept
    exact hdir hkept

theorem Writable.writeText (h : Writable d p) (text : String) :
    ∃ d', writeText d p text = (d', .ok ()) := by
  obtain ⟨d1, hlay⟩ := Disk.layDirectories_returns (hasNull_parent h.null) (short_parent h.short) h.way
  have hmade := Disk.layDirectories_made hlay
  have hl : d1.locate p = .ok (p.normal []) := by
    refine Disk.locate_eq_ok.mpr ⟨rfl, h.short, fun spelled hpre hne => hmade.trail _ ?_⟩
    exact Path.mem_trail.mpr ⟨spelled, prefix_parent ⟨hpre, hne⟩, rfl⟩
  have hplace : d1.get? (p.normal []) ≠ some .directory := by
    rw [hmade.apart _ h.apart]
    exact h.place
  have hw : d1.write p (Text.encode text) = .ok _ := Disk.write_eq_ok.mpr ⟨hl, hplace, rfl⟩
  unfold Publish.writeText
  rw [if_neg (by simp [hasNull_parent h.null]), hlay]
  simp only [h.null, Bool.false_eq_true, if_false, hw]
  exact ⟨_, rfl⟩

/-- A text is written exactly where it can be. -/
theorem writeText_returns_iff : (∃ d', writeText d p text = (d', .ok ())) ↔ Writable d p :=
  ⟨fun ⟨_, h⟩ => writable_of_writeText h, fun h => h.writeText text⟩

/-- What stands after a text was written: the text, directories on the way to it, and what stood
before. -/
theorem get?_writeText (h : writeText d p text = (d', .ok ())) (k : Location) :
    d'.get? k =
      if k = p.normal [] then some (.file (Text.encode text))
      else if k ∈ p.parent.trail then some .directory
      else d.get? k := by
  rcases writeText_cases d p text with ⟨-, hw⟩ | ⟨e, -, hw⟩ | ⟨-, d1, d2, hlay, hwrite, hw⟩
  · rw [hw] at h
    cases h
  · rw [hw] at h
    cases h
  · rw [hw] at h
    cases h
    have hmade := Disk.layDirectories_made hlay
    rw [Disk.get?_write hwrite]
    refine if_congr Iff.rfl rfl ?_
    split
    · next hk => exact hmade.trail k hk
    · next hk => exact hmade.apart k hk

/-! ## Texts in turn -/

/-- Neither of two paths ends where the other one needs a directory. -/
def Apart (p q : Path) : Prop := p.normal [] ∉ q.parent.trail ∧ q.normal [] ∉ p.parent.trail

instance (p q : Path) : Decidable (Apart p q) := inferInstanceAs (Decidable (_ ∧ _))

/-- After a text was written, another one can be written if it could be before, and if the two paths
keep apart. -/
theorem writable_after (h : writeText d p text = (d', .ok ())) :
    Writable d' q ↔ Writable d q ∧ Apart p q := by
  have hp := writable_of_writeText h
  have hget := get?_writeText h
  have hway : ∀ k ∈ q.parent.trail, p.normal [] ∉ q.parent.trail → d'.fileAt k = d.fileAt k := by
    intro k hk hclear
    have hne : k ≠ p.normal [] := by
      rintro rfl
      exact hclear hk
    have hk' := hget k
    rw [if_neg hne] at hk'
    split at hk'
    · next hin =>
      rw [hp.way k hin]
      unfold Disk.fileAt
      rw [hk']
    · exact Disk.fileAt_congr hk'
  constructor
  · intro hq
    have hclear : p.normal [] ∉ q.parent.trail := by
      intro hin
      have hfile := hq.way _ hin
      unfold Disk.fileAt at hfile
      rw [hget, if_pos rfl] at hfile
      cases hfile
    have hback : q.normal [] ∉ p.parent.trail := by
      intro hin
      have hne : q.normal [] ≠ p.normal [] := fun he => hp.apart (he ▸ hin)
      apply hq.place
      rw [hget, if_neg hne, if_pos hin]
    refine ⟨⟨hq.null, hq.short, fun k hk => ?_, fun hdir => ?_, hq.apart⟩, hclear, hback⟩
    · rw [← hway k hk hclear]
      exact hq.way k hk
    · by_cases he : q.normal [] = p.normal []
      · exact hp.place (he ▸ hdir)
      · apply hq.place
        rw [hget, if_neg he, if_neg hback, hdir]
  · rintro ⟨hq, hclear, hback⟩
    refine ⟨hq.null, hq.short, fun k hk => ?_, ?_, hq.apart⟩
    · rw [hway k hk hclear]
      exact hq.way k hk
    · rw [hget, if_neg hback]
      split
      · simp
      · exact hq.place

/-- Texts are written one after the other exactly where each of them can be written alone and their
paths keep apart. -/
theorem writeTexts_returns_iff :
    (writeTexts d texts).2.2 = none ↔
      (∀ x ∈ texts, Writable d x.1) ∧ texts.Pairwise (fun x y => Apart x.1 y.1) := by
  induction texts generalizing d with
  | nil => simp [writeTexts]
  | cons x rest ih =>
    obtain ⟨p, text⟩ := x
    simp only [writeTexts, List.mem_cons, forall_eq_or_imp, List.pairwise_cons]
    rcases hx : writeText d p text with ⟨d1, e | _⟩
    · have hnot : ¬ Writable d p := by
        have hiff : (∃ d', writeText d p text = (d', .ok ())) ↔ Writable d p := writeText_returns_iff
        rw [← hiff, hx]
        rintro ⟨d', h⟩
        cases h
      simp [hnot]
    · have hp := writable_of_writeText hx
      simp only [ih, writable_after hx, hp, true_and]
      constructor
      · rintro ⟨hrest, hpairs⟩
        exact ⟨fun y hy => (hrest y hy).1, fun y hy => (hrest y hy).2, hpairs⟩
      · rintro ⟨hrest, hfirst, hpairs⟩
        exact ⟨fun y hy => ⟨hrest y hy, hfirst y hy⟩, hpairs⟩

/-- Texts that were written in turn keep apart, each from each. -/
theorem apart_of_written (h : (writeTexts d texts).2.2 = none) :
    ∀ x ∈ texts, ∀ y ∈ texts, Apart x.1 y.1 := by
  obtain ⟨hall, hpairs⟩ := writeTexts_returns_iff.mp h
  have hsymm : Std.Symm fun x y : Path × String => Apart x.1 y.1 := ⟨fun _ _ h => ⟨h.2, h.1⟩⟩
  exact fun x hx y hy =>
    hpairs.forall_of_forall (fun z hz => ⟨(hall z hz).apart, (hall z hz).apart⟩) hx hy

end Publish

end Sourcebook
