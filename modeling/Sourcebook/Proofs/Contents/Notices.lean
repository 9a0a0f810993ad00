-- Notices are only added at the end and never read. So a key that finds no chapter changes
-- nothing in the whole tree but that one more warning is given.
import Mathlib
import Sourcebook.Proofs.Contents.Arranged

namespace Sourcebook

open Folder (Lost Every Tidy)

namespace Arrange

/-- The work, when other notices were given before. -/
def Work.after (ns : List Notice) (w : Work) : Work := { w with notices := ns ++ w.notices }

def Draft.after (ns : List Notice) (d : Draft) : Draft := { d with work := d.work.after ns }

variable {ns : List Notice} {w : Work} {d : Draft} {path metaName : String}
  {held : List (String × Item)} {entries : List (String × Override)}

/-! ## Notices are not read -/

theorem Work.remark_after (n : Notice) : (w.after ns).remark n = (w.remark n).after ns := by
  simp [after, remark]

theorem Work.warns_after {α : Type} (text : α → String) (l : List α) (w : Work) :
    l.foldl (fun w a => w.warn (text a)) (w.after ns) =
      (l.foldl (fun w a => w.warn (text a)) w).after ns := by
  induction l generalizing w with
  | nil => rfl
  | cons a l ih =>
    rw [List.foldl_cons, List.foldl_cons, ← ih]
    congr 1
    exact Work.remark_after _

theorem Work.settles_after (ids : List String) (w : Work) :
    ids.foldl (fun w id => w.settle path id) (w.after ns) =
      (ids.foldl (fun w id => w.settle path id) w).after ns := by
  induction ids generalizing w with
  | nil => rfl
  | cons id ids ih => exact ih (w.settle path id)

theorem Draft.place_after (o : Override) (item : Item) :
    (d.after ns).place o item = (d.place o item).after ns := by
  unfold Draft.place
  cases o.title with
  | none =>
    dsimp only
    split <;> rfl
  | some title =>
    dsimp only
    by_cases ht : title.isEmpty = true
    · simp only [ht, if_true]
      split <;> rfl
    · simp only [ht, Bool.false_eq_true, if_false]
      cases item <;> split <;> rfl

theorem Draft.places_after (o : Override) (items : List Item) (d : Draft) :
    items.foldl (fun d item => d.place o item) (d.after ns) =
      (items.foldl (fun d item => d.place o item) d).after ns := by
  induction items generalizing d with
  | nil => rfl
  | cons item items ih => rw [List.foldl_cons, List.foldl_cons, ← ih, Draft.place_after]

theorem Draft.hoist_after (key : String) (o : Override) :
    (d.after ns).hoist path metaName key o = (d.hoist path metaName key o).after ns := by
  unfold Draft.hoist
  dsimp only
  rw [show (d.after ns).info = d.info from rfl, show (d.after ns).children = d.children from rfl]
  split
  · exact congrArg (fun w => ({ d with work := w } : Draft)) (Work.remark_after _)
  · exact Draft.place_after (d := { d with
      children := _, info := _, work := d.work.updateChapter _ _ }) o _

theorem Draft.key_after (key : String) (o : Override) :
    (d.after ns).key path metaName held key o = (d.key path metaName held key o).after ns := by
  unfold Draft.key
  split
  · rfl
  · split
    · rfl
    · split
      · split
        · exact Draft.hoist_after key o
        · exact congrArg (fun w => ({ d with work := w } : Draft)) (Work.remark_after _)
      · exact Draft.places_after o _ { d with used := key :: d.used }

theorem Draft.keys_after :
    (d.after ns).keys path metaName held entries = (d.keys path metaName held entries).after ns := by
  induction entries generalizing d with
  | nil => rfl
  | cons e entries ih =>
    refine Eq.trans ?_ ih
    exact congrArg (Draft.keys path metaName held entries) (Draft.key_after e.1 e.2)

variable {disk : Disk} {way : List String} {info : FolderInfo} {children : List Folder}

theorem arrangeBy_after (file : OverrideFile) :
    arrangeBy file metaName way (w.after ns) info children =
      ((arrangeBy file metaName way w info children).1.after ns,
        (arrangeBy file metaName way w info children).2) := by
  have hstart : Draft.start file (Tree.pathText way) (w.after ns) info children =
      (Draft.start file (Tree.pathText way) w info children).after ns := by
    unfold Draft.start
    dsimp only
    rw [show file.warnings.foldl Work.warn (w.after ns) = _ from Work.warns_after (fun t => t) _ _,
      Work.settles_after, Work.warns_after]
    rfl
  rw [arrangeBy_eq, arrangeBy_eq]
  unfold Draft.done
  rw [hstart, Draft.keys_after]
  rfl

theorem arrangeHere_after :
    arrangeHere disk metaName way (w.after ns) info children =
      ((arrangeHere disk metaName way w info children).1.after ns,
        (arrangeHere disk metaName way w info children).2) := by
  unfold arrangeHere
  rw [show (w.after ns).stop = w.stop from rfl]
  split
  · rfl
  · rfl
  · exact arrangeBy_after _

theorem arrangeAll_after {cs : List Folder}
    (hone : ∀ c ∈ cs, ∀ v w, arrange disk metaName v (w.after ns) c =
      ((arrange disk metaName v w c).1.after ns, (arrange disk metaName v w c).2)) :
    arrangeAll disk metaName way (w.after ns) cs =
      ((arrangeAll disk metaName way w cs).1.after ns, (arrangeAll disk metaName way w cs).2) := by
  induction cs generalizing w with
  | nil => simp [arrangeAll]
  | cons c cs ih =>
    simp only [arrangeAll_cons, hone c List.mem_cons_self,
      ih fun d hd => hone d (List.mem_cons_of_mem _ hd)]

/-- What was remarked before does not matter to a tree that is arranged. -/
theorem arrange_after (f : Folder) :
    arrange disk metaName way (w.after ns) f =
      ((arrange disk metaName way w f).1.after ns, (arrange disk metaName way w f).2) := by
  induction f generalizing way w with
  | mk info children ih =>
    rw [arrange_mk, arrange_mk, arrangeAll_after fun c hc v w => ih c hc]
    exact arrangeHere_after

end Arrange

end Sourcebook
