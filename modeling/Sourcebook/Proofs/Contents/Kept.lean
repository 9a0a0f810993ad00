-- What the arranged tree keeps of its chapters: a property that survives a new title and a folder
-- of the tree survives the whole pass.
import Mathlib
import Sourcebook.Proofs.Contents.Arranged

namespace Sourcebook

namespace Arrange

/-- A property of chapters that neither a new title nor a move to a path ends. -/
structure Kept (P : Chapter → Prop) (path : String) : Prop where
  title : ∀ {c : Chapter} (title : String), P c → P { c with title := title }
  folder : ∀ {c : Chapter}, P c → P { c with folder := some path }

/-- Something holds of every chapter of the work. -/
def Work.All (P : Chapter → Prop) (w : Work) : Prop := ∀ c ∈ w.chapters, P c

variable {P : Chapter → Prop} {path metaName : String} {w : Work} {d : Draft}
  {held : List (String × Item)}

theorem Work.All.updateChapter (h : w.All P) {id : String} {f : Chapter → Chapter}
    (hf : ∀ c, P c → P (f c)) : (w.updateChapter id f).All P := by
  intro c hc
  obtain ⟨c', hc', rfl⟩ := List.mem_map.mp hc
  split
  · exact hf c' (h c' hc')
  · exact h c' hc'

theorem Work.All.settles (hP : Kept P path) (h : w.All P) (ids : List String) :
    (ids.foldl (fun w id => w.settle path id) w).All P := by
  induction ids generalizing w with
  | nil => exact h
  | cons id ids ih =>
    refine ih (h.updateChapter fun c hc => ?_)
    split
    · exact hP.folder hc
    · exact hc

theorem Kept.place (hP : Kept P path) (h : d.work.All P) (o : Override) (item : Item) :
    (d.place o item).work.All P := by
  obtain ⟨e, he, hplace⟩ := d.place_cases o item
  have hwork : e.1.work.All P := by
    rcases he with rfl | ⟨title, rfl⟩
    · exact h
    · cases item with
      | folder segment => exact h
      | chapter id => exact h.updateChapter fun c hc => hP.title title hc
      | page p => exact h
      | separator t => exact h
  rw [hplace]
  split <;> exact hwork

theorem Kept.places (hP : Kept P path) (o : Override) {items : List Item} (h : d.work.All P) :
    (items.foldl (fun d item => d.place o item) d).work.All P := by
  induction items generalizing d with
  | nil => exact h
  | cons item items ih => exact ih (hP.place h o item)

theorem Kept.key (hP : Kept P path) (h : d.work.All P) (key : String) (o : Override) :
    (d.key path metaName held key o).work.All P := by
  have hturn := d.key_turn path metaName held key o
  generalize d.key path metaName held key o = e at hturn
  cases hturn with
  | rest _ => exact h
  | separator _ => exact h
  | named _ _ => exact hP.places o h
  | missed _ _ _ _ => exact h
  | hoisted _ _ _ _ => exact hP.place (h.updateChapter fun c hc => hP.folder hc) o _
  | unknown _ _ _ _ _ => exact h

theorem Kept.keys (hP : Kept P path) {entries : List (String × Override)} (h : d.work.All P) :
    (d.keys path metaName held entries).work.All P := by
  induction entries generalizing d with
  | nil => exact h
  | cons e entries ih => exact ih (hP.key h e.1 e.2)

variable {disk : Disk} {way : List String}

theorem arrangeBy_kept (hP : Kept P (Tree.pathText way)) (h : w.All P) (file : OverrideFile)
    (info : FolderInfo) (children : List Folder) :
    (arrangeBy file metaName way w info children).1.All P := by
  refine hP.keys (d := Draft.start file (Tree.pathText way) w info children) ?_
  unfold Work.All Draft.start
  dsimp only
  rw [Work.warns_chapters]
  refine Work.All.settles hP ?_ info.chapters
  unfold Work.All
  rw [Work.warns_chapters fun text => text]
  exact h

theorem arrangeHere_kept (hP : Kept P (Tree.pathText way)) (h : w.All P) (info : FolderInfo)
    (children : List Folder) : (arrangeHere disk metaName way w info children).1.All P := by
  unfold arrangeHere
  split
  · exact h
  · exact h
  · exact arrangeBy_kept hP h _ info children

/-- The pass over a list of folders keeps what the pass over each of them keeps. -/
theorem arrangeAll_kept {cs : List Folder} (hone : ∀ c ∈ cs, ∀ w : Work, w.All P →
    (arrange disk metaName (way ++ [c.segment]) w c).1.All P) (h : w.All P) :
    (arrangeAll disk metaName way w cs).1.All P := by
  induction cs generalizing w with
  | nil =>
    simp only [arrangeAll]
    exact h
  | cons c cs ih =>
    rw [arrangeAll_cons]
    exact ih (fun d hd => hone d (List.mem_cons_of_mem _ hd)) (hone c List.mem_cons_self w h)

/-- What every folder of the tree keeps holds of all chapters after the pass. -/
theorem arrange_kept {f : Folder} (hP : ∀ n ∈ f.nodes way, Kept P (Tree.pathText n.1))
    (h : w.All P) : (arrange disk metaName way w f).1.All P := by
  induction f generalizing way w with
  | mk info children ih =>
    rw [Folder.nodes] at hP
    rw [arrange_mk]
    refine arrangeHere_kept (hP _ List.mem_cons_self) (arrangeAll_kept (fun c hc w hw => ?_) h) _ _
    refine ih c hc (fun n hn => hP n (List.mem_cons_of_mem _ ?_)) hw
    exact Folder.mem_nodesOf.mpr ⟨c, hc, hn⟩

end Arrange

end Sourcebook
