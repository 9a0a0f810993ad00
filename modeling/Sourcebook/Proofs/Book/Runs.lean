-- The blocks of a section by the runs of what was added to it: prose that follows prose is one
-- block, and so is code of one group. Adding one piece after the other gives the same blocks.
import Mathlib
import Sourcebook.Book.Chapter
import Sourcebook.Proofs.Text.Pieces

namespace Sourcebook

/-- What is added to a section at once. -/
inductive Piece where
  | prose (text : String)
  | code (c : Code) (group : Option String)
  deriving Repr, DecidableEq

namespace Piece

/-- The second piece continues the block of the first. -/
def joins : Piece → Piece → Bool
  | .prose _, .prose _ => true
  | .code _ (some g), .code _ (some h) => g == h && !g.isEmpty
  | _, _ => false

def text? : Piece → Option String
  | .prose text => some text
  | .code _ _ => none

def code? : Piece → Option Code
  | .prose _ => none
  | .code c _ => some c

/-- The group of code; no group counts as the empty one, and prose has none. -/
def group? : Piece → Option String
  | .prose _ => none
  | .code _ group => some (group.getD "")

theorem joins_iff {p q : Piece} : p.joins q = true ↔ p.group? = q.group? ∧ q.group? ≠ some "" := by
  cases p with
  | prose t =>
    cases q with
    | prose u => simp [joins, group?]
    | code c h => simp [joins, group?]
  | code b g =>
    cases q with
    | prose u => simp [joins, group?]
    | code c h =>
      cases g with
      | none =>
        cases h with
        | none => simp [joins, group?]
        | some h =>
          simp only [joins, group?, Option.getD_none, Option.getD_some]
          constructor
          · intro hf
            cases hf
          · rintro ⟨he, hne⟩
            exact absurd he.symm hne
      | some g =>
        cases h with
        | none => simp [joins, group?]
        | some h =>
          simp only [joins, group?, Option.getD_some, Bool.and_eq_true, beq_iff_eq, Bool.not_eq_true',
            String.isEmpty_eq_false_iff, Option.some.injEq, ne_eq]
          constructor
          · rintro ⟨rfl, hne⟩
            exact ⟨rfl, hne⟩
          · rintro ⟨rfl, hne⟩
            exact ⟨rfl, hne⟩

/-- All pieces of a run are of the group of the last one, and only a group or prose has more than
one piece. -/
theorem group?_of_chain {run : List Piece} {q : Piece}
    (h : (run ++ [q]).IsChain fun x y => x.joins y) :
    (∀ r ∈ run, r.group? = q.group?) ∧ (run = [] ∨ q.group? ≠ some "") := by
  induction run with
  | nil => simp
  | cons r rest ih =>
    rw [List.cons_append, List.isChain_cons] at h
    obtain ⟨hrest, hne⟩ := ih h.2
    have hr : r.group? = q.group? ∧ q.group? ≠ some "" := by
      cases rest with
      | nil => exact joins_iff.mp (h.1 q (by simp))
      | cons s rest =>
        have hs := joins_iff.mp (h.1 s (by simp))
        rw [hrest s List.mem_cons_self] at hs
        exact hs
    refine ⟨fun s hs => ?_, Or.inr hr.2⟩
    rcases List.mem_cons.mp hs with rfl | hs
    · exact hr.1
    · exact hrest s hs

end Piece

namespace Block

def addPiece (blocks : List Block) : Piece → List Block
  | .prose text => addProse blocks text
  | .code c group => addCode blocks c group

/-- The block of a run of pieces; the first piece decides its kind. -/
def ofRun (run : List Piece) : Block :=
  match run with
  | .code c none :: _ => .code c
  | .code c (some g) :: _ => if g.isEmpty then .code c else .tabs g (run.filterMap Piece.code?)
  | _ => .prose ("\n".intercalate (run.filterMap Piece.text?))

/-- The blocks of pieces: one for each of their longest runs. -/
def ofPieces (pieces : List Piece) : List Block := (pieces.splitBy Piece.joins).map ofRun

/-! ## Runs and one more piece -/

variable {ps : List Piece} {p q : Piece}

/-- The pieces up to the last one end in a run. -/
theorem splitBy_last (ps : List Piece) (q : Piece) :
    ∃ runs run, (ps ++ [q]).splitBy Piece.joins = runs ++ [run ++ [q]] ∧
      (run ++ [q]).IsChain fun x y => x.joins y := by
  have hne : (ps ++ [q]).splitBy Piece.joins ≠ [] := List.splitBy_ne_nil.mpr (by simp)
  obtain ⟨runs, last, hruns⟩ := (List.eq_nil_or_concat' _).resolve_left hne
  obtain ⟨hflat, hnil, hchain, -⟩ := List.splitBy_eq_iff.mp hruns
  have hlast : last ≠ [] := by
    rintro rfl
    exact hnil (by simp)
  obtain ⟨run, q', rfl⟩ := (List.eq_nil_or_concat' last).resolve_left hlast
  have hq : q = q' := by simpa using congrArg List.getLast? hflat
  subst hq
  exact ⟨runs, run, hruns, hchain _ (by simp)⟩

/-- A piece that does not join the last one starts a run. -/
theorem splitBy_start (h : ∀ q ∈ ps.getLast?, q.joins p = false) :
    (ps ++ [p]).splitBy Piece.joins = ps.splitBy Piece.joins ++ [[p]] := by
  rw [List.splitBy_append_cons [] h]
  rfl

/-- A piece that joins the last one is one more piece of the last run. -/
theorem splitBy_join {runs : List (List Piece)} {run : List Piece} (h : q.joins p = true)
    (hruns : (ps ++ [q]).splitBy Piece.joins = runs ++ [run ++ [q]]) :
    (ps ++ [q] ++ [p]).splitBy Piece.joins = runs ++ [run ++ [q] ++ [p]] := by
  obtain ⟨hflat, hnil, hchain, hbreaks⟩ := List.splitBy_eq_iff.mp hruns
  refine List.splitBy_eq_iff.mpr ⟨?_, ?_, ?_, ?_⟩
  · rw [hflat]
    simp
  · intro hmem
    rcases List.mem_append.mp hmem with hmem | hmem
    · exact hnil (List.mem_append_left _ hmem)
    · simp at hmem
  · intro m hm
    rcases List.mem_append.mp hm with hm | hm
    · exact hchain m (List.mem_append_left _ hm)
    · rw [List.mem_singleton.mp hm, List.isChain_append]
      exact ⟨hchain _ (by simp), List.isChain_singleton p, by simpa using h⟩
  · rw [List.isChain_append] at hbreaks ⊢
    refine ⟨hbreaks.1, List.isChain_singleton _, fun x hx y hy => ?_⟩
    obtain ⟨ha, hb, hr⟩ := hbreaks.2.2 x hx (run ++ [q]) (by simp)
    obtain rfl : run ++ [q] ++ [p] = y := by simpa using hy
    refine ⟨ha, by simp, ?_⟩
    rw [← hr, List.head_append_of_ne_nil hb]

/-! ## Blocks and one more piece -/

theorem ofRun_prose {run : List Piece} (hne : run ≠ []) (h : ∀ r ∈ run, r.group? = none) :
    ofRun run = .prose ("\n".intercalate (run.filterMap Piece.text?)) := by
  cases run with
  | nil => exact absurd rfl hne
  | cons r rest =>
    cases r with
    | prose t => rfl
    | code c g =>
      have hr := h _ List.mem_cons_self
      cases hr

theorem ofRun_tabs {run : List Piece} {g : String} (hne : run ≠ []) (hg : g ≠ "")
    (h : ∀ r ∈ run, r.group? = some g) : ofRun run = .tabs g (run.filterMap Piece.code?) := by
  cases run with
  | nil => exact absurd rfl hne
  | cons r rest =>
    have hr := h _ List.mem_cons_self
    cases r with
    | prose t => cases hr
    | code c group =>
      cases group with
      | none => exact absurd (Option.some.inj hr).symm hg
      | some k =>
        obtain rfl : k = g := Option.some.inj hr
        simp only [ofRun]
        rw [if_neg (by simpa using hg)]

theorem addProse_start {blocks : List Block} {b : Block} (hb : ∀ t, b ≠ .prose t) (text : String) :
    addProse (blocks ++ [b]) text = blocks ++ [b] ++ [.prose text] := by
  unfold addProse
  rw [List.getLast?_concat]
  cases b with
  | prose t => exact absurd rfl (hb t)
  | code c => rfl
  | tabs g members => rfl

theorem addCode_start {blocks : List Block} {b : Block} {g : String} (hg : g ≠ "")
    (hb : ∀ members, b ≠ .tabs g members) (c : Code) :
    addCode (blocks ++ [b]) c (some g) = blocks ++ [b] ++ [.tabs g [c]] := by
  unfold addCode
  rw [List.getLast?_concat]
  simp only
  rw [if_neg (by simpa using hg)]
  cases b with
  | prose t => rfl
  | code c' => rfl
  | tabs g' members =>
    simp only
    rw [if_neg]
    rintro rfl
    exact hb members rfl

/-- The block of a run tells the group of its pieces. -/
theorem group?_of_prose {run : List Piece} {text : String} (hne : run ≠ [])
    (h : ofRun run = .prose text) : ∃ r ∈ run, r.group? = none := by
  cases run with
  | nil => exact absurd rfl hne
  | cons r rest =>
    cases r with
    | prose t => exact ⟨_, List.mem_cons_self, rfl⟩
    | code c group =>
      cases group with
      | none => cases h
      | some g =>
        simp only [ofRun] at h
        split at h <;> cases h

theorem group?_of_tabs {run : List Piece} {g : String} {members : List Code}
    (h : ofRun run = .tabs g members) : ∃ r ∈ run, r.group? = some g := by
  unfold ofRun at h
  split at h
  · cases h
  · split at h
    · cases h
    · cases h
      exact ⟨_, List.mem_cons_self, rfl⟩
  · cases h

theorem intercalate_toList (texts : List String) :
    ("\n".intercalate texts).toList = Text.joinWith '\n' (texts.map String.toList) := by
  rw [String.toList_intercalate, Text.joinWith_eq_intercalate]
  rfl

theorem intercalate_snoc {texts : List String} (hne : texts ≠ []) (text : String) :
    "\n".intercalate (texts ++ [text]) = "\n".intercalate texts ++ "\n" ++ text := by
  apply String.toList_injective
  rw [String.toList_append, String.toList_append, intercalate_toList, intercalate_toList,
    List.map_append, List.map_singleton, Text.joinWith_snoc (by simpa using hne)]
  simp

/-- A piece that joins the last one goes into its block. -/
theorem addPiece_join {blocks : List Block} {run : List Piece} (h : q.joins p = true)
    (hchain : (run ++ [q]).IsChain fun x y => x.joins y) :
    addPiece (blocks ++ [ofRun (run ++ [q])]) p = blocks ++ [ofRun (run ++ [q] ++ [p])] := by
  obtain ⟨hgroup, hempty⟩ := Piece.joins_iff.mp h
  have hall : ∀ r ∈ run ++ [q], r.group? = p.group? := by
    intro r hr
    rcases List.mem_append.mp hr with hr | hr
    · exact ((Piece.group?_of_chain hchain).1 r hr).trans hgroup
    · rw [List.mem_singleton.mp hr]
      exact hgroup
  have hmore : ∀ r ∈ run ++ [q] ++ [p], r.group? = p.group? := by
    intro r hr
    rcases List.mem_append.mp hr with hr | hr
    · exact hall r hr
    · rw [List.mem_singleton.mp hr]
  cases p with
  | prose text =>
    have htexts : (run ++ [q]).filterMap Piece.text? ≠ [] := by
      cases q with
      | prose t => simp [Piece.text?]
      | code c g => cases hgroup
    have hsnoc : (run ++ [q] ++ [Piece.prose text]).filterMap Piece.text? =
        (run ++ [q]).filterMap Piece.text? ++ [text] := List.filterMap_append
    rw [ofRun_prose (by simp) hall, ofRun_prose (by simp) hmore, hsnoc, intercalate_snoc htexts]
    simp only [addPiece, addProse, List.getLast?_concat, List.dropLast_concat]
  | code c group =>
    cases group with
    | none => exact absurd rfl hempty
    | some g =>
      have hg : g ≠ "" := fun he => hempty (congrArg some he)
      have hsnoc : (run ++ [q] ++ [Piece.code c (some g)]).filterMap Piece.code? =
          (run ++ [q]).filterMap Piece.code? ++ [c] := List.filterMap_append
      rw [ofRun_tabs (by simp) hg hall, ofRun_tabs (by simp) hg hmore, hsnoc]
      simp only [addPiece, addCode, List.getLast?_concat, List.dropLast_concat]
      rw [if_neg (by simpa using hg)]
      simp

/-- A piece that does not join the last one comes into a block of its own. -/
theorem addPiece_start {blocks : List Block} {run : List Piece} (h : q.joins p = false)
    (hchain : (run ++ [q]).IsChain fun x y => x.joins y) :
    addPiece (blocks ++ [ofRun (run ++ [q])]) p =
      blocks ++ [ofRun (run ++ [q])] ++ [ofRun [p]] := by
  have hne : ¬ (q.group? = p.group? ∧ p.group? ≠ some "") := by
    rw [← Piece.joins_iff, h]
    exact Bool.false_ne_true
  have hall : ∀ r ∈ run ++ [q], r.group? = q.group? := by
    intro r hr
    rcases List.mem_append.mp hr with hr | hr
    · exact (Piece.group?_of_chain hchain).1 r hr
    · rw [List.mem_singleton.mp hr]
  cases p with
  | prose text =>
    have hb : ∀ t, ofRun (run ++ [q]) ≠ .prose t := by
      intro t ht
      obtain ⟨r, hr, hnone⟩ := group?_of_prose (by simp) ht
      rw [hall r hr] at hnone
      exact hne ⟨hnone, by simp [Piece.group?]⟩
    simp only [addPiece]
    rw [addProse_start hb]
    simp [ofRun, Piece.text?]
  | code c group =>
    cases group with
    | none => rfl
    | some g =>
      by_cases hg : g = ""
      · subst hg
        simp [addPiece, addCode, ofRun]
      · have hb : ∀ members, ofRun (run ++ [q]) ≠ .tabs g members := by
          intro members hm
          obtain ⟨r, hr, hsome⟩ := group?_of_tabs hm
          rw [hall r hr] at hsome
          exact hne ⟨hsome, fun he => hg (Option.some.inj he)⟩
        simp only [addPiece]
        rw [addCode_start hg hb]
        simp [ofRun, hg, Piece.code?]

theorem addPiece_nil (p : Piece) : addPiece [] p = [ofRun [p]] := by
  cases p with
  | prose text => simp [addPiece, addProse, ofRun, Piece.text?]
  | code c group =>
    cases group with
    | none => rfl
    | some g =>
      by_cases hg : g = ""
      · subst hg
        simp [addPiece, addCode, ofRun]
      · simp [addPiece, addCode, ofRun, hg, Piece.code?]

/-- Adding a piece to the blocks is adding it to the pieces. -/
theorem ofPieces_snoc (ps : List Piece) (p : Piece) :
    ofPieces (ps ++ [p]) = addPiece (ofPieces ps) p := by
  unfold ofPieces
  rcases List.eq_nil_or_concat' ps with rfl | ⟨front, q, rfl⟩
  · exact (addPiece_nil p).symm
  · obtain ⟨runs, run, hruns, hchain⟩ := splitBy_last front q
    cases hj : q.joins p with
    | true =>
      rw [splitBy_join hj hruns, hruns, List.map_append, List.map_append, List.map_singleton,
        List.map_singleton, addPiece_join hj hchain]
    | false =>
      rw [splitBy_start (by simpa using hj), hruns, List.map_append, List.map_append,
        List.map_singleton, List.map_singleton, addPiece_start hj hchain]

end Block

end Sourcebook
