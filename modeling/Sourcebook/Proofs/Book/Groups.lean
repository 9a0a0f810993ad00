-- The blocks of a section, told from what was added to it: the pieces are cut into their longest runs,
-- and each run makes one block. Read line by line, the blocks give back what was added.
import Mathlib
import Sourcebook.Proofs.Book.Runs

namespace Sourcebook

/-! ## Cutting into runs -/

/-- Pieces in their longest runs: in a run each piece continues the one before it, and no run is
continued by the one behind it. -/
structure Piece.Cut (pieces : List Piece) (runs : List (List Piece)) : Prop where
  whole : pieces = runs.flatten
  filled : [] ∉ runs
  joined : ∀ run ∈ runs, run.IsChain fun p q => p.joins q
  longest : runs.IsChain fun a b => ∃ (ha : a ≠ []) (hb : b ≠ []), (a.getLast ha).joins (b.head hb) = false

/-- There is one such cut. -/
theorem Piece.cut_iff {pieces : List Piece} {runs : List (List Piece)} :
    Cut pieces runs ↔ pieces.splitBy joins = runs := by
  rw [List.splitBy_eq_iff]
  exact ⟨fun h => ⟨h.whole, h.filled, h.joined, h.longest⟩,
    fun ⟨hwhole, hfilled, hjoined, hlongest⟩ => ⟨hwhole, hfilled, hjoined, hlongest⟩⟩

/-! ## Runs as blocks -/

/-- The block that a run makes: texts one below the other, code on its own where it has no group or
an empty one, and code of a group as the tabs of that group. -/
inductive Block.Made : List Piece → Block → Prop
  | prose {texts : List String} : texts ≠ [] →
    Made (texts.map .prose) (.prose ("\n".intercalate texts))
  | code {c : Code} {group : Option String} : group.getD "" = "" → Made [.code c group] (.code c)
  | tabs {g : String} {codes : List Code} : g ≠ "" → codes ≠ [] →
    Made (codes.map fun c => .code c (some g)) (.tabs g codes)

/-- Two blocks of one kind and group, which could have been one. -/
def Block.alike : Block → Block → Bool
  | .prose _, .prose _ => true
  | .tabs g _, .tabs h _ => g == h
  | _, _ => false

/-- What a block was made of: the lines of prose, and code with its group. No group counts as the
empty one. -/
def Block.parts : Block → List Piece
  | .prose content => (Text.splitLines content.toList).map fun line => .prose (String.ofList line)
  | .code c => [.code c (some "")]
  | .tabs g codes => codes.map fun c => .code c (some g)

/-- The same of a piece that is added. -/
def Piece.parts : Piece → List Piece
  | .prose text => (Text.splitLines text.toList).map fun line => .prose (String.ofList line)
  | .code c group => [.code c (some (group.getD ""))]

namespace Block

variable {run run' : List Piece} {b b' : Block}

theorem Made.eq (h : Made run b) : ofRun run = b := by
  cases h with
  | @prose texts hne =>
    obtain ⟨t, rest, rfl⟩ := List.exists_cons_of_ne_nil hne
    have htexts : ((t :: rest).map Piece.prose).filterMap Piece.text? = t :: rest := by
      rw [List.filterMap_map]
      exact List.filterMap_some
    rw [ofRun_prose (by simp) (by simp [Piece.group?]), htexts]
  | @code c group hgroup =>
    cases group with
    | none => rfl
    | some g => simpa [ofRun] using hgroup
  | @tabs g codes hg hne =>
    have hcodes : (codes.map fun c => Piece.code c (some g)).filterMap Piece.code? = codes := by
      rw [List.filterMap_map]
      exact List.filterMap_some
    rw [ofRun_tabs (by simpa using hne) hg (by simp [Piece.group?]), hcodes]

theorem exists_texts (h : ∀ p ∈ run, p.group? = none) : ∃ texts : List String, run = texts.map .prose := by
  induction run with
  | nil => exact ⟨[], rfl⟩
  | cons p rest ih =>
    obtain ⟨hp, hrest⟩ := List.forall_mem_cons.mp h
    obtain ⟨texts, rfl⟩ := ih hrest
    cases p with
    | prose text => exact ⟨text :: texts, rfl⟩
    | code c group => cases hp

theorem exists_codes {g : String} (hg : g ≠ "") (h : ∀ p ∈ run, p.group? = some g) :
    ∃ codes : List Code, run = codes.map fun c => .code c (some g) := by
  induction run with
  | nil => exact ⟨[], rfl⟩
  | cons p rest ih =>
    obtain ⟨hp, hrest⟩ := List.forall_mem_cons.mp h
    obtain ⟨codes, rfl⟩ := ih hrest
    cases p with
    | prose text => cases hp
    | code c group =>
      cases group with
      | none => exact absurd (Option.some.inj hp).symm hg
      | some k => exact ⟨c :: codes, by rw [← Option.some.inj hp]; rfl⟩

/-- Every run makes a block. -/
theorem made_of_chain (hne : run ≠ []) (h : run.IsChain fun p q => p.joins q) : Made run (ofRun run) := by
  have hmade : ∀ b, Made run b → Made run (ofRun run) := fun b hb => hb.eq.symm ▸ hb
  obtain ⟨before, q, rfl⟩ := (List.eq_nil_or_concat' run).resolve_left hne
  obtain ⟨hbefore, hlong⟩ := Piece.group?_of_chain h
  have hall : ∀ p ∈ before ++ [q], p.group? = q.group? := by
    intro p hp
    rcases List.mem_append.mp hp with hp | hp
    · exact hbefore p hp
    · rw [List.mem_singleton.mp hp]
  cases hgroup : q.group? with
  | none =>
    rw [hgroup] at hall
    obtain ⟨texts, htexts⟩ := exists_texts hall
    rw [htexts] at hne hmade ⊢
    exact hmade _ (.prose (by simpa using hne))
  | some g =>
    by_cases hg : g = ""
    · obtain rfl := hlong.resolve_right fun hq => hq (hg ▸ hgroup)
      cases q with
      | prose text => cases hgroup
      | code c group => exact hmade _ (.code ((Option.some.inj hgroup).trans hg))
    · rw [hgroup] at hall
      obtain ⟨codes, hcodes⟩ := exists_codes hg hall
      rw [hcodes] at hne hmade ⊢
      exact hmade _ (.tabs hg (by simpa using hne))

/-- Pieces that are added one after the other make the blocks of their runs. -/
theorem foldl_addPiece (pieces : List Piece) : pieces.foldl addPiece [] = ofPieces pieces := by
  induction pieces using List.reverseRecOn with
  | nil => rfl
  | append_singleton pieces p ih =>
    rw [List.foldl_append, List.foldl_cons, List.foldl_nil, ih, ofPieces_snoc]

/-- Where a run ends, the next block is of another kind or group. -/
theorem not_alike (h : Made run b) (h' : Made run' b') (hne : run ≠ []) (hne' : run' ≠ [])
    (hbreak : (run.getLast hne).joins (run'.head hne') = false) : b.alike b' = false := by
  cases h with
  | @prose texts _ =>
    cases h' with
    | @prose texts' _ => simp [Piece.joins] at hbreak
    | _ => rfl
  | code _ => cases h' <;> rfl
  | @tabs g codes hg _ =>
    cases h' with
    | @tabs g' codes' hg' _ => simpa [Piece.joins, alike, hg] using hbreak
    | _ => rfl

/-! ## Reading the pieces back -/

/-- Lines that are joined are cut at the line feeds between them and at those inside. -/
theorem splitLines_intercalate {texts : List String} (hne : texts ≠ []) :
    Text.splitLines ("\n".intercalate texts).toList = texts.flatMap (Text.splitLines ·.toList) := by
  rw [intercalate_toList]
  induction texts with
  | nil => exact absurd rfl hne
  | cons t rest ih =>
    cases rest with
    | nil => simp [Text.joinWith]
    | cons u rest =>
      have hrest : (u :: rest).map String.toList ≠ [] := List.cons_ne_nil _ _
      rw [List.map_cons, Text.joinWith_cons hrest, Text.splitLines, Text.splitOn_append_cons]
      exact congrArg (Text.splitLines t.toList ++ ·) (ih (List.cons_ne_nil u rest))

theorem Made.parts (h : Made run b) : b.parts = run.flatMap Piece.parts := by
  cases h with
  | @prose texts hne =>
    rw [Block.parts, splitLines_intercalate hne, List.map_flatMap, List.flatMap_map]
    rfl
  | @code c group hgroup =>
    simp only [Block.parts, List.flatMap_singleton, Piece.parts, hgroup]
  | @tabs g codes hg hne =>
    rw [List.flatMap_map]
    exact List.map_eq_flatMap

/-- The blocks of a section are the longest runs of what was added to it, in order: prose that is not
interrupted is one block of its texts one below the other, code of one group that is not interrupted is
one block of tabs, and code without a group is a block of its own. So two blocks of prose, or two blocks
of tabs of one group, do not follow each other, no block of tabs is empty, and the blocks read line by
line and tab by tab are the pieces that were added. -/
theorem blocks_are_the_longest_runs (pieces : List Piece) :
    let blocks := pieces.foldl addPiece []
    (∀ bs, bs = blocks ↔ ∃ runs, Piece.Cut pieces runs ∧ List.Forall₂ Made runs bs) ∧
    blocks.IsChain (fun a b => a.alike b = false) ∧
    (∀ g codes, .tabs g codes ∈ blocks → g ≠ "" ∧ codes ≠ []) ∧
    blocks.flatMap Block.parts = pieces.flatMap Piece.parts := by
  intro blocks
  have hblocks : blocks = ofPieces pieces := foldl_addPiece pieces
  obtain ⟨runs, hruns⟩ : ∃ runs, pieces.splitBy Piece.joins = runs := ⟨_, rfl⟩
  have hcut : Piece.Cut pieces runs := Piece.cut_iff.mpr hruns
  have heach : blocks = runs.map ofRun := by rw [hblocks, ofPieces, hruns]
  have hne : ∀ run ∈ runs, run ≠ [] := fun run hrun he => hcut.filled (he ▸ hrun)
  have hmade : ∀ run ∈ runs, Made run (ofRun run) := fun run hrun =>
    made_of_chain (hne run hrun) (hcut.joined run hrun)
  refine ⟨fun bs => ⟨?_, ?_⟩, ?_, fun g codes hg => ?_, ?_⟩
  · rintro rfl
    refine ⟨runs, hcut, ?_⟩
    rw [heach, List.forall₂_map_right_iff, List.forall₂_same]
    exact hmade
  · rintro ⟨others, hothers, hbs⟩
    obtain rfl : runs = others := hruns.symm.trans (Piece.cut_iff.mp hothers)
    have hsame : List.Forall₂ Eq (runs.map ofRun) bs :=
      List.forall₂_map_left_iff.mpr (hbs.imp fun _ _ h => h.eq)
    rw [List.forall₂_eq_eq_eq] at hsame
    rw [heach, hsame]
  · rw [heach, List.isChain_map]
    exact hcut.longest.imp_of_mem_imp fun a b ha hb ⟨hna, hnb, hbreak⟩ =>
      not_alike (hmade a ha) (hmade b hb) hna hnb hbreak
  · rw [heach] at hg
    obtain ⟨run, hrun, he⟩ := List.mem_map.mp hg
    have hone := he ▸ hmade run hrun
    cases hone with
    | tabs hg hcodes => exact ⟨hg, hcodes⟩
  · rw [heach, List.flatMap_map, hcut.whole, List.flatten_eq_flatMap, List.flatMap_assoc]
    exact List.flatMap_congr fun run hrun => (hmade run hrun).parts

/-- Code of one group on both sides of a line of prose is in two blocks of tabs. -/
example (a b c : Code) :
    [.code a (some "g"), .code b (some "g"), .prose "x", .prose "y", .code c (some "g"),
      .code a (some ""), .code b none].foldl addPiece [] =
    [.tabs "g" [a, b], .prose "x\ny", .tabs "g" [c], .code a, .code b] := rfl

end Block

end Sourcebook
