-- The chapters of a project: every identifier once, and the order of the files and of the pages.
import Mathlib
import Sourcebook.Proofs.Book.Declared

namespace Sourcebook

/-- Chapters with different identifiers. -/
def Distinct (cs : List Chapter) : Prop := (cs.map (·.id)).Nodup

instance (cs : List Chapter) : Decidable (Distinct cs) := inferInstanceAs (Decidable (List.Nodup _))

namespace Book

variable {s : Settings} {b b' : Book}

theorem updateChapter_distinct (hb : Distinct b.chapters) {id : String} {f : Chapter → Chapter}
    (hf : ∀ c, (f c).id = c.id) : Distinct (b.updateChapter id f).chapters := by
  have hids : (b.updateChapter id f).chapters.map (·.id) = b.chapters.map (·.id) := by
    unfold updateChapter
    rw [List.map_map]
    refine List.map_congr_left fun c _ => ?_
    simp only [Function.comp_apply]
    split
    · exact hf c
    · rfl
  unfold Distinct
  rw [hids]
  exact hb

theorem apply_distinct (hb : Distinct b.chapters) {e : Event} (h : b.apply s e = .ok b') :
    Distinct b'.chapters := by
  have hedit := apply_edit h
  generalize b'.chapters = cs at hedit
  cases hedit with
  | @added source line id title _ hnone =>
    unfold Distinct
    rw [List.map_append, List.map_singleton, List.nodup_append]
    refine ⟨hb, List.nodup_singleton _, ?_⟩
    rintro k hk m hm rfl
    obtain ⟨c, hc, rfl⟩ := List.mem_map.mp hk
    have hne := List.find?_eq_none.mp hnone c hc
    exact hne (by simpa [newChapter] using hm)
  | changed id hf => exact updateChapter_distinct hb hf.id
  | same => exact hb

theorem lasts_distinct (s : Settings) : Lasts s Distinct := fun _ hb h => apply_distinct hb h

/-- A project has every chapter once. -/
theorem ofProject_distinct {disk : Disk} (hd : disk.Named) (hs : s.root.Named)
    {files : List Location} {desk : Desk} {stop : Option ScanError}
    (h : ofProject disk s = .ok (files, desk, stop)) : Distinct desk.book.chapters :=
  ofProject_lasts (lasts_distinct s) List.nodup_nil hd hs h

/-! ## The order of the pages -/

/-- Chapters by priority, and those of one priority as they were declared. -/
structure Ranked (declared ordered : List Chapter) : Prop where
  perm : ordered.Perm declared
  rising : ordered.Pairwise (·.priority ≤ ·.priority)
  ties : ∀ n, ordered.filter (·.priority = n) = declared.filter (·.priority = n)

theorem ordered_ranked (b : Book) : Ranked b.chapters b.ordered := by
  have hperm : b.ordered.Perm b.chapters := List.mergeSort_perm _ _
  have htrans : ∀ x y z : Chapter, decide (x.priority ≤ y.priority) = true →
      decide (y.priority ≤ z.priority) = true → decide (x.priority ≤ z.priority) = true := by
    intro x y z hxy hyz
    simp only [decide_eq_true_eq] at hxy hyz ⊢
    omega
  have htotal : ∀ x y : Chapter,
      (decide (x.priority ≤ y.priority) || decide (y.priority ≤ x.priority)) = true := by
    intro x y
    simp only [Bool.or_eq_true, decide_eq_true_eq]
    omega
  refine ⟨hperm, ?_, fun n => ?_⟩
  · exact (List.pairwise_mergeSort htrans htotal b.chapters).imp fun h => of_decide_eq_true h
  · -- Chapters of one priority are in order already, so sorting keeps them as they are.
    have hlevel : (b.chapters.filter (·.priority = n)).Pairwise
        fun x y => decide (x.priority ≤ y.priority) = true := by
      refine List.pairwise_of_forall_mem_list fun x hx y hy => ?_
      have hxn : x.priority = n := by simpa using (List.mem_filter.mp hx).2
      have hyn : y.priority = n := by simpa using (List.mem_filter.mp hy).2
      simp [hxn, hyn]
    have hkept := (List.sublist_mergeSort htrans htotal hlevel List.filter_sublist).filter
      (·.priority = n)
    simp only [List.filter_filter, Bool.and_self] at hkept
    exact (hkept.eq_of_length (hperm.filter _).length_eq.symm).symm

theorem ordered_distinct {b : Book} (h : Distinct b.chapters) : Distinct b.ordered :=
  ((ordered_ranked b).perm.map _).nodup_iff.mpr h

/-- Chapters that were declared by rising priority stay as they are. -/
theorem ordered_of_rising {b : Book} (h : b.chapters.Pairwise (·.priority ≤ ·.priority)) :
    b.ordered = b.chapters :=
  List.mergeSort_of_pairwise (h.imp fun h => decide_eq_true h)

end Book

/-- Files that are found in their order are read in it. -/
theorem Discovery.files_of_rising {d : Disk} {s : Settings} (found : List (List Location))
    (h : s.selected.mapM (fun pattern => do
      (ofPattern d s (← Glob.parse pattern)).mapError .trouble) = .ok found)
    (hrising : found.flatten.Pairwise (Location.before · ·)) :
    files d s = .ok found.flatten.eraseDups := by
  unfold files Location.sorted
  rw [h]
  simp only [bind, Except.bind, pure, Except.pure, List.mergeSort_of_pairwise hrising]

theorem Book.ofProject_of_read {d : Disk} {s : Settings} {files : List Location} {desk : Desk}
    {stop : Option ScanError} (hfiles : Discovery.files d s = .ok files)
    (hread : Desk.readSources d s ⟨.empty, some files⟩ files = (desk, stop)) :
    ofProject d s = .ok (files, desk, stop) := by
  unfold ofProject
  rw [hfiles, ← Prod.eta (desk, stop), ← hread]
  rfl

end Sourcebook
