-- The front matter of a page ends at the first line that can end it, and what stands in it is read as
-- the title of the page, unless the title is one of those that are lost.
import Mathlib
import Sourcebook.Page.Basic
import Sourcebook.Proofs.Text.Pieces
import Sourcebook.Proofs.Yaml.Written

namespace Sourcebook

open Data (Value)

variable {sep : Char} {s : List Char} {w : Yaml.Width}

/-! ## Lines -/

namespace Text

theorem splitOn_behind {p first : List Char} {more : List (List Char)} (hp : sep ∉ p)
    (h : splitOn sep s = first :: more) : splitOn sep (p ++ s) = (p ++ first) :: more := by
  induction p with
  | nil => exact h
  | cons c p ih =>
    rw [List.mem_cons, not_or] at hp
    rw [List.cons_append, splitOn, if_neg (Ne.symm hp.1), ih hp.2]
    rfl

/-- The pieces with a separator behind each are the text with one behind it. -/
theorem flatMap_splitOn (sep : Char) (s : List Char) :
    (splitOn sep s).flatMap (· ++ [sep]) = s ++ [sep] := by
  have hjoin : ∀ ps : List (List Char), ps ≠ [] →
      ps.flatMap (· ++ [sep]) = joinWith sep ps ++ [sep] := by
    intro ps hne
    induction ps with
    | nil => exact absurd rfl hne
    | cons p ps ih =>
      cases ps with
      | nil => simp [joinWith]
      | cons q ps =>
        rw [List.flatMap_cons, ih (List.cons_ne_nil _ _), joinWith_cons (List.cons_ne_nil _ _)]
        simp
  rw [hjoin _ (splitOn_ne_nil sep s), joinWith_splitOn]

end Text

theorem Yaml.Wrapped.lines (h : Wrapped w s) (hw : 0 < w.indent) : ∃ first more,
    Text.splitLines s = first :: more ∧ ∀ line ∈ more, line.head? = some ' ' := by
  induction h with
  | nil => exact ⟨[], [], rfl, by simp⟩
  | @char c s hc _ ih =>
    obtain ⟨first, more, hlines, hmore⟩ := ih
    refine ⟨c :: first, more, ?_, hmore⟩
    exact Text.splitOn_behind (p := [c]) (by simpa using hc.1.symm) hlines
  | @line s _ ih =>
    obtain ⟨first, more, hlines, hmore⟩ := ih
    refine ⟨[], (List.replicate w.indent ' ' ++ first) :: more, ?_, ?_⟩
    · have hspaces : '\n' ∉ List.replicate w.indent ' ' := fun hmem =>
        absurd (List.eq_of_mem_replicate hmem) (by decide)
      rw [Width.newLine, List.cons_append, Text.splitLines, Text.splitOn, if_pos rfl,
        Text.splitOn_behind hspaces hlines]
    · obtain ⟨n, hn⟩ := Nat.exists_eq_succ_of_ne_zero hw.ne'
      refine List.forall_mem_cons.mpr ⟨?_, hmore⟩
      rw [hn]
      rfl

namespace Page

/-- The line before the front matter, and behind it. -/
def mark : List Char := ['-', '-', '-']

/-- The lines of the front matter are none of its ends. -/
theorem lines_frontMatter (title : String) : ∃ front, mark ∉ front ∧
    front.flatMap (· ++ ['\n']) = (frontMatter title).toList ∧
      ∀ rest, Text.splitLines ((frontMatter title).toList ++ rest) = front ++ Text.splitLines rest := by
  obtain ⟨first, more, hlines, hmore⟩ :=
    (@Yaml.wrapped_writeText Yaml.titleWidth 6 title).lines (by decide)
  have hkey : '\n' ∉ "title:".toList := by simp
  have hfront := Text.splitOn_behind hkey hlines
  have hwritten : (frontMatter title).toList =
      "title:".toList ++ Yaml.writeText Yaml.titleWidth 6 title ++ ['\n'] := by
    rw [frontMatter, String.toList_ofList, Yaml.entryText_title, List.append_assoc]
  refine ⟨("title:".toList ++ first) :: more, ?_, ?_, fun rest => ?_⟩
  · rw [List.mem_cons, not_or]
    refine ⟨fun h => ?_, fun hmem => ?_⟩
    · simp [mark] at h
    · exact absurd (hmore mark hmem) (by decide)
  · rw [← hfront, Text.flatMap_splitOn, hwritten]
  · rw [hwritten, List.append_assoc _ ['\n'], List.singleton_append, Text.splitLines,
      Text.splitOn_append_cons, hfront]
    rfl

/-- A page starts with a line of three dashes, and the next such line ends the front matter. What
stands between them is read as one text under the key of the title, and the text is the title, unless
the title holds the mark of a next line in single quotes or spaces of it were torn by the end of a
line. -/
theorem titles_come_back_unless_lost (title : String) (sections : List Section) : ∃ front rest,
    Text.splitLines (render title sections).toList = mark :: (front ++ mark :: rest) ∧ mark ∉ front ∧
      ∃ t : String, Yaml.read (front.flatMap (· ++ ['\n'])) =
        .ok (.map [(.text "title", .text t)]) ∧ (t = title ↔ Yaml.Survives title) := by
  obtain ⟨front, hmark, htext, hlines⟩ := lines_frontMatter title
  obtain ⟨t, hread, hback⟩ := Yaml.read_entryText title
  have hpage : (render title sections).toList = mark ++ '\n' :: ((frontMatter title).toList ++
      (mark ++ '\n' :: '\n' :: (String.join (sections.map sectionText)).toList)) := by
    simp [render, mark]
  have hfree : '\n' ∉ mark := by decide
  refine ⟨front, Text.splitLines ('\n' :: (String.join (sections.map sectionText)).toList), ?_, hmark, t,
    ?_, hback⟩
  · simp only [Text.splitLines] at hlines ⊢
    rw [hpage, Text.splitOn_append hfree, hlines, Text.splitOn_append hfree]
  · rw [htext, frontMatter, String.toList_ofList]
    exact hread

/-- The mark of a next line is read as a space. -/
theorem a_title_can_be_lost : ∃ front rest,
    Text.splitLines (render "a\u0085b" []).toList = mark :: (front ++ mark :: rest) ∧ mark ∉ front ∧
      Yaml.read (front.flatMap (· ++ ['\n'])) = .ok (.map [(.text "title", .text "a b")]) := by
  refine ⟨["title: 'a\u0085  b'".toList], [[], []], by decide +kernel, by decide +kernel, ?_⟩
  have htext : ["title: 'a\u0085  b'".toList].flatMap (· ++ ['\n']) =
      Yaml.entryText Yaml.titleWidth "title" "a\u0085b" := by decide +kernel
  have htokens : Yaml.Token.ofSource ⟨Yaml.entryText Yaml.titleWidth "title" "a\u0085b", none⟩ =
      Yaml.entryTokens "a b" false := by decide +kernel
  rw [htext]
  exact Yaml.read_entry (Yaml.allowed_entryText _) htokens (by simp)

end Page

end Sourcebook
