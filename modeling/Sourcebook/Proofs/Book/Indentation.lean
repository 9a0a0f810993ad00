-- Captured lines and what is shown of them. Lines are shown without blank ones at both ends and
-- without the blanks that they share at the left; lines that stand like that already stay as they
-- are, and come back when they are moved to the right.
import Mathlib
import Sourcebook.Book.Snippet
import Sourcebook.Proofs.Data.Paired
import Sourcebook.Proofs.Text.Blanks
import Sourcebook.Proofs.Text.Pieces

namespace Sourcebook.Snippet

open Text

/-! ## Lines as they are shown -/

/-- Lines that stand at the left: none blank at either end, blank lines empty, and some line that
starts with a character that is not blank. -/
structure Flush (lines : List (List Char)) : Prop where
  first : ∀ l ∈ lines.head?, allBlank l = false
  last : ∀ l ∈ lines.getLast?, allBlank l = false
  blanks : ∀ l ∈ lines, allBlank l = true → l = []
  margin : lines ≠ [] → ∃ l ∈ lines, ∃ c ∈ l.head?, isBlank c = false

/-- A line that was moved to the right. A blank line may have become any other. -/
def MovedLine (margin l moved : List Char) : Prop :=
  if allBlank l then allBlank moved = true else moved = margin ++ l

/-- Lines that were moved to the right, with blank lines in front of them and behind them. -/
def Moved (margin : List Char) (lines moved : List (List Char)) : Prop :=
  ∃ before body after, moved = before ++ body ++ after ∧ (∀ l ∈ before, allBlank l = true) ∧
    (∀ l ∈ after, allBlank l = true) ∧ List.Forall₂ (MovedLine margin) lines body

/-! ## The lines between the blank ones -/

variable {lines before body after : List (List Char)}

/-- Lines that neither start nor end with a blank one are left over of what has blank lines around
them. -/
theorem core_append (hne : body ≠ []) (hbefore : ∀ l ∈ before, allBlank l = true)
    (hafter : ∀ l ∈ after, allBlank l = true) (hfirst : ∀ l ∈ body.head?, allBlank l = false)
    (hlast : ∀ l ∈ body.getLast?, allBlank l = false) : core (before ++ body ++ after) = body := by
  have hdrop : ∀ {front rest : List (List Char)}, (∀ l ∈ front, allBlank l = true) →
      (∀ l ∈ rest.head?, allBlank l = false) → (front ++ rest).dropWhile allBlank = rest := by
    intro front rest hfront hrest
    rw [List.dropWhile_append_of_pos hfront]
    cases rest with
    | nil => rfl
    | cons l rest => exact List.dropWhile_cons_of_neg (by simp [hrest l rfl])
  have hback : ∀ l ∈ after.reverse, allBlank l = true :=
    fun l hl => hafter l (List.mem_reverse.mp hl)
  unfold core
  rw [List.append_assoc, hdrop hbefore, List.reverse_append, hdrop hback, List.reverse_reverse]
  · rw [List.head?_reverse]
    exact hlast
  · rw [List.head?_append_of_ne_nil _ hne]
    exact hfirst

/-- What is left over between blank lines, and the blank lines. -/
theorem exists_core (lines : List (List Char)) : ∃ before after,
    lines = before ++ core lines ++ after ∧ (∀ l ∈ before, allBlank l = true) ∧
    (∀ l ∈ after, allBlank l = true) ∧ (∀ l ∈ (core lines).head?, allBlank l = false) ∧
    ∀ l ∈ (core lines).getLast?, allBlank l = false := by
  have hhead : ∀ (rest : List (List Char)) (l : List Char),
      l ∈ (rest.dropWhile allBlank).head? → allBlank l = false := by
    intro rest l hl
    have hnot := List.head?_dropWhile_not allBlank rest
    rw [Option.mem_def.mp hl] at hnot
    simpa using hnot
  have hcore : (lines.dropWhile allBlank) =
      core lines ++ ((lines.dropWhile allBlank).reverse.takeWhile allBlank).reverse := by
    unfold core
    rw [← List.reverse_append, List.takeWhile_append_dropWhile, List.reverse_reverse]
  refine ⟨lines.takeWhile allBlank, ((lines.dropWhile allBlank).reverse.takeWhile allBlank).reverse,
    ?_, ?_, ?_, ?_, ?_⟩
  · rw [List.append_assoc, ← hcore, List.takeWhile_append_dropWhile]
  · intro l hl
    exact List.mem_takeWhile_imp hl
  · intro l hl
    exact List.mem_takeWhile_imp (List.mem_reverse.mp hl)
  · intro l hl
    refine hhead lines l ?_
    rw [hcore, List.head?_append, Option.mem_def.mp hl]
    rfl
  · intro l hl
    refine hhead (lines.dropWhile allBlank).reverse l ?_
    unfold core at hl
    rwa [List.getLast?_reverse] at hl

/-! ## Indentation -/

variable {margin l : List Char}

theorem indentOf_append (h : allBlank margin = true) (l : List Char) :
    indentOf (margin ++ l) = margin.length + indentOf l := by
  unfold indentOf
  rw [List.takeWhile_append_of_pos (List.all_eq_true.mp h), List.length_append]

theorem allBlank_append (h : allBlank margin = true) (l : List Char) :
    allBlank (margin ++ l) = allBlank l := by
  unfold allBlank at *
  rw [List.all_append, h, Bool.true_and]

/-- The shared indentation is that of a line which has the least. -/
theorem sharedIndent_eq {n : Nat} (hleast : ∀ l ∈ lines, allBlank l = false → n ≤ indentOf l)
    (hsome : ∃ l ∈ lines, allBlank l = false ∧ indentOf l = n) : sharedIndent lines = n := by
  obtain ⟨l, hl, hsolid, rfl⟩ := hsome
  have hmin : ((lines.filter (!allBlank ·)).map indentOf).min? = some (indentOf l) := by
    rw [List.min?_eq_some_iff]
    constructor
    · exact List.mem_map_of_mem (List.mem_filter.mpr ⟨hl, by simp [hsolid]⟩)
    · intro k hk
      obtain ⟨m, hm, rfl⟩ := List.mem_map.mp hk
      obtain ⟨hin, hkept⟩ := List.mem_filter.mp hm
      exact hleast m hin (by simpa using hkept)
  unfold sharedIndent
  rw [hmin]
  rfl

/-- Lines with one among them that is not blank share the indentation of some line, and no line has
less. -/
theorem sharedIndent_spec (hsome : ∃ l ∈ lines, allBlank l = false) :
    (∃ l ∈ lines, allBlank l = false ∧ indentOf l = sharedIndent lines) ∧
    ∀ l ∈ lines, allBlank l = false → sharedIndent lines ≤ indentOf l := by
  obtain ⟨l, hl, hsolid⟩ := hsome
  have hin : l ∈ lines.filter (!allBlank ·) := List.mem_filter.mpr ⟨hl, by simp [hsolid]⟩
  obtain ⟨n, hn⟩ : ∃ n, ((lines.filter (!allBlank ·)).map indentOf).min? = some n := by
    rw [← Option.isSome_iff_exists, List.isSome_min?_iff]
    exact List.ne_nil_of_mem (List.mem_map_of_mem hin)
  have hshared : sharedIndent lines = n := by
    unfold sharedIndent
    rw [hn]
    rfl
  obtain ⟨hmem, hleast⟩ := List.min?_eq_some_iff.mp hn
  rw [hshared]
  constructor
  · obtain ⟨m, hm, hindent⟩ := List.mem_map.mp hmem
    obtain ⟨hm, hkept⟩ := List.mem_filter.mp hm
    exact ⟨m, hm, by simpa using hkept, hindent⟩
  · intro m hm hkept
    exact hleast _ (List.mem_map_of_mem (List.mem_filter.mpr ⟨hm, by simp [hkept]⟩))

/-! ## Lines that come back -/

theorem MovedLine.allBlank_eq (hmargin : allBlank margin = true) {m : List Char}
    (h : MovedLine margin l m) : allBlank m = allBlank l := by
  unfold MovedLine at h
  split at h
  · next hblank => rw [h, hblank]
  · rw [h, allBlank_append hmargin]

theorem MovedLine.eq (hsolid : allBlank l = false) {m : List Char} (h : MovedLine margin l m) :
    m = margin ++ l := by
  unfold MovedLine at h
  rwa [if_neg (by simp [hsolid])] at h

/-- Moving to the right adds what the lines then share. -/
theorem sharedIndent_moved (hflush : Flush lines) (hne : lines ≠ [])
    (hmargin : allBlank margin = true) (h : List.Forall₂ (MovedLine margin) lines body) :
    sharedIndent body = margin.length := by
  refine sharedIndent_eq (fun m hm hsolid => ?_) ?_
  · obtain ⟨l, hl, hmoved⟩ := exists_of_mem_right h hm
    rw [hmoved.allBlank_eq hmargin] at hsolid
    rw [hmoved.eq hsolid, indentOf_append hmargin]
    omega
  · obtain ⟨l, hl, c, hc, hsolid⟩ := hflush.margin hne
    obtain ⟨rest, rfl⟩ : ∃ rest, l = c :: rest := by
      cases l with
      | nil => cases hc
      | cons d rest =>
        cases hc
        exact ⟨rest, rfl⟩
    have hline : allBlank (c :: rest) = false := by simp [allBlank, hsolid]
    obtain ⟨m, hm, hmoved⟩ := exists_of_mem_right h.flip hl
    have hmoved : MovedLine margin (c :: rest) m := hmoved
    refine ⟨m, hm, by rw [hmoved.allBlank_eq hmargin, hline], ?_⟩
    rw [hmoved.eq hline, indentOf_append hmargin]
    simp [indentOf, hsolid]

theorem dedentLines_moved (hne : lines ≠ []) (hflush : Flush lines)
    (hmargin : allBlank margin = true) {moved : List (List Char)} (h : Moved margin lines moved) :
    dedentLines moved = lines := by
  obtain ⟨before, body, after, rfl, hbefore, hafter, hmoved⟩ := h
  have hbody : body ≠ [] := by
    rintro rfl
    cases hmoved
    exact hne rfl
  have hfirst : ∀ m ∈ body.head?, allBlank m = false := by
    intro m hm
    obtain ⟨l, hl, hline⟩ := head_of_forall₂ hmoved hm
    rw [hline.allBlank_eq hmargin, hflush.first l hl]
  have hlast : ∀ m ∈ body.getLast?, allBlank m = false := by
    intro m hm
    rw [← List.head?_reverse] at hm
    obtain ⟨l, hl, hline⟩ := head_of_forall₂ (List.forall₂_reverse_iff.mpr hmoved) hm
    rw [List.head?_reverse] at hl
    rw [hline.allBlank_eq hmargin, hflush.last l hl]
  have hback : ∀ {ls ms : List (List Char)}, (∀ l ∈ ls, allBlank l = true → l = []) →
      List.Forall₂ (MovedLine margin) ls ms → ms.map (moveLeft margin.length) = ls := by
    intro ls ms hblanks hpairs
    induction hpairs with
    | nil => rfl
    | @cons l m ls ms hline hrest ih =>
      obtain ⟨hl, hls⟩ := List.forall_mem_cons.mp hblanks
      rw [List.map_cons, ih hls]
      congr 1
      unfold moveLeft
      rw [hline.allBlank_eq hmargin]
      cases hblank : allBlank l with
      | true => exact (hl hblank).symm
      | false => rw [hline.eq hblank, if_neg Bool.false_ne_true, List.drop_left]
  unfold dedentLines
  simp only [core_append hbody hbefore hafter hfirst hlast,
    sharedIndent_moved hflush hne hmargin hmoved]
  exact hback hflush.blanks hmoved

theorem dedent_moved (hne : lines ≠ []) (hflush : Flush lines) (hmargin : allBlank margin = true)
    {moved : List (List Char)} (h : Moved margin lines moved) : dedent moved = joinLines lines := by
  unfold dedent
  rw [dedentLines_moved hne hflush hmargin h]

/-! ## What is shown -/

/-- The characters of a line that are not blank. -/
def solid (l : List Char) : List Char := l.filter (!isBlank ·)

/-- Lines as they are shown: with all their characters but blanks, and each as far to the right of
the others as it was. -/
structure ShownAs (body shown : List (List Char)) : Prop where
  solid : shown.map solid = body.map solid
  offsets : ∀ x ∈ body.zip shown, ∀ y ∈ body.zip shown,
    allBlank x.1 = false → allBlank y.1 = false →
    (indentOf x.1 : Int) - indentOf y.1 = indentOf x.2 - indentOf y.2

theorem solid_of_allBlank (h : allBlank l = true) : solid l = [] := by
  unfold solid
  rw [List.filter_eq_nil_iff]
  intro c hc
  simpa using List.all_eq_true.mp h c hc

theorem moveLeft_of_blank (n : Nat) (h : allBlank l = true) : moveLeft n l = [] := if_pos h

/-- A line that has the indentation keeps all but its first blanks. -/
theorem eq_append_moveLeft {n : Nat} (hn : n ≤ indentOf l) (hsolid : allBlank l = false) :
    ∃ gap, l = gap ++ moveLeft n l ∧ gap.length = n ∧ allBlank gap = true := by
  have hmove : moveLeft n l = l.drop n := if_neg (by simp [hsolid])
  refine ⟨l.take n, by rw [hmove, List.take_append_drop], ?_, ?_⟩
  · rw [List.length_take, Nat.min_eq_left]
    exact hn.trans (List.takeWhile_prefix _).length_le
  · have hfront : l.take n <+: l.takeWhile isBlank :=
      List.prefix_of_prefix_length_le (List.take_prefix n l) (List.takeWhile_prefix _) (by
        rw [List.length_take]
        exact (Nat.min_le_left _ _).trans hn)
    refine List.all_eq_true.mpr fun c hc => ?_
    exact List.mem_takeWhile_imp (hfront.subset hc)

theorem allBlank_moveLeft {n : Nat} (hn : n ≤ indentOf l) (hsolid : allBlank l = false) :
    allBlank (moveLeft n l) = false := by
  obtain ⟨gap, hl, -, hgap⟩ := eq_append_moveLeft hn hsolid
  rw [hl, allBlank_append hgap] at hsolid
  exact hsolid

theorem indentOf_moveLeft {n : Nat} (hn : n ≤ indentOf l) (hsolid : allBlank l = false) :
    indentOf l = n + indentOf (moveLeft n l) := by
  obtain ⟨gap, hl, hlength, hgap⟩ := eq_append_moveLeft hn hsolid
  have hindent := congrArg indentOf hl
  rw [indentOf_append hgap, hlength] at hindent
  exact hindent

theorem solid_moveLeft {n : Nat} (hn : allBlank l = false → n ≤ indentOf l) :
    solid (moveLeft n l) = solid l := by
  cases hblank : allBlank l with
  | true =>
    rw [moveLeft_of_blank n hblank, solid_of_allBlank hblank]
    rfl
  | false =>
    obtain ⟨gap, hl, -, hgap⟩ := eq_append_moveLeft (hn hblank) hblank
    have hsolid := congrArg solid hl
    unfold solid at hsolid
    rw [List.filter_append, show gap.filter (!isBlank ·) = [] from solid_of_allBlank hgap,
      List.nil_append] at hsolid
    exact hsolid.symm

/-- All lines of a body are moved to the left by one and the same indentation. -/
theorem shownAs_moveLeft {n : Nat} (hleast : ∀ l ∈ body, allBlank l = false → n ≤ indentOf l) :
    ShownAs body (body.map (moveLeft n)) where
  solid := by
    rw [List.map_map]
    exact List.map_congr_left fun l hl => solid_moveLeft (hleast l hl)
  offsets := by
    have hpair : ∀ x ∈ body.zip (body.map (moveLeft n)), allBlank x.1 = false →
        indentOf x.1 = n + indentOf x.2 := by
      intro x hx hsolid
      rw [← List.map_prod_left_eq_zip] at hx
      obtain ⟨l, hl, rfl⟩ := List.mem_map.mp hx
      exact indentOf_moveLeft (hleast l hl hsolid) hsolid
    intro x hx y hy hxsolid hysolid
    rw [hpair x hx hxsolid, hpair y hy hysolid]
    omega

theorem exists_solid (hne : body ≠ []) (hfirst : ∀ l ∈ body.head?, allBlank l = false) :
    ∃ l ∈ body, allBlank l = false := by
  obtain ⟨l, rest, rfl⟩ := List.exists_cons_of_ne_nil hne
  exact ⟨l, List.mem_cons_self, hfirst l rfl⟩

/-- Between blank lines and without what they share, lines stand at the left. -/
theorem flush_moveLeft (hfirst : ∀ l ∈ body.head?, allBlank l = false)
    (hlast : ∀ l ∈ body.getLast?, allBlank l = false) :
    Flush (body.map (moveLeft (sharedIndent body))) := by
  by_cases hne : body = []
  · subst hne
    exact ⟨by simp, by simp, by simp, by simp⟩
  obtain ⟨hshared, hleast⟩ := sharedIndent_spec (exists_solid hne hfirst)
  refine ⟨fun m hm => ?_, fun m hm => ?_, fun m hm hblank => ?_, fun _ => ?_⟩
  · rw [List.head?_map] at hm
    obtain ⟨l, hl, rfl⟩ := Option.mem_map.mp hm
    exact allBlank_moveLeft (hleast l (List.mem_of_mem_head? hl) (hfirst l hl)) (hfirst l hl)
  · rw [List.getLast?_map] at hm
    obtain ⟨l, hl, rfl⟩ := Option.mem_map.mp hm
    exact allBlank_moveLeft (hleast l (List.mem_of_mem_getLast? hl) (hlast l hl)) (hlast l hl)
  · obtain ⟨l, hl, rfl⟩ := List.mem_map.mp hm
    cases hsolid : allBlank l with
    | true => exact moveLeft_of_blank _ hsolid
    | false =>
      rw [allBlank_moveLeft (hleast l hl hsolid) hsolid] at hblank
      cases hblank
  · obtain ⟨l, hl, hsolid, hindent⟩ := hshared
    refine ⟨_, List.mem_map_of_mem hl, ?_⟩
    have hzero : indentOf (moveLeft (sharedIndent body) l) = 0 := by
      have hmoved := indentOf_moveLeft (hleast l hl hsolid) hsolid
      omega
    have hstays := allBlank_moveLeft (hleast l hl hsolid) hsolid
    cases hshown : moveLeft (sharedIndent body) l with
    | nil =>
      rw [hshown] at hstays
      cases hstays
    | cons c rest =>
      refine ⟨c, rfl, ?_⟩
      rw [hshown] at hzero
      unfold indentOf at hzero
      by_contra hc
      rw [List.takeWhile_cons_of_pos (by simpa using hc)] at hzero
      cases hzero

/-- Where nothing is left over, all lines are blank. -/
theorem allBlank_of_core (h : core lines = []) : ∀ l ∈ lines, allBlank l = true := by
  intro l hl
  obtain ⟨before, after, hsplit, hbefore, hafter, -⟩ := exists_core lines
  rw [hsplit, h, List.append_nil] at hl
  rcases List.mem_append.mp hl with hl | hl
  · exact hbefore l hl
  · exact hafter l hl

theorem dedent_of_core (h : core lines = []) : dedent lines = [] := by
  unfold dedent dedentLines
  rw [h]
  rfl

/-- What lines are shown as is read back line by line. -/
theorem splitLines_dedent (hlines : ∀ l ∈ lines, '\n' ∉ l) (hne : core lines ≠ []) :
    splitLines (dedent lines) = dedentLines lines := by
  refine splitOn_joinWith (by simpa [dedentLines] using hne) fun m hm => ?_
  obtain ⟨l, hl, rfl⟩ := List.mem_map.mp hm
  obtain ⟨before, after, hsplit, -⟩ := exists_core lines
  have hin : l ∈ lines := by
    rw [hsplit]
    exact List.mem_append_left _ (List.mem_append_right _ hl)
  unfold moveLeft
  split
  · simp
  · exact fun hbreak => hlines l hin (List.mem_of_mem_drop hbreak)

theorem moved_self (lines : List (List Char)) : Moved [] lines lines := by
  refine ⟨[], lines, [], by simp, by simp, by simp, List.forall₂_same.mpr fun l _ => ?_⟩
  unfold MovedLine
  split
  · next hblank => exact hblank
  · rfl

/-- Lines that stand at the left come back from where they were moved to. All other lines are shown
as such, so that they are shown no different a second time; they keep all that is not blank, and
how far to the right they are of one another. -/
theorem lines_are_shown_at_the_left :
    (∀ (margin : List Char) (lines moved : List (List Char)), lines ≠ [] → Flush lines →
      allBlank margin = true → Moved margin lines moved → dedent moved = joinLines lines) ∧
    ∀ lines : List (List Char), (∀ l ∈ lines, '\n' ∉ l) →
      let shown := splitLines (dedent lines)
      (dedent lines = [] ∨ Flush shown) ∧ dedent shown = dedent lines ∧
      ((∀ l ∈ lines, allBlank l = true) ∧ dedent lines = [] ∨
        ∃ before body after, lines = before ++ body ++ after ∧ (∀ l ∈ before, allBlank l = true) ∧
          (∀ l ∈ after, allBlank l = true) ∧ ShownAs body shown) := by
  refine ⟨fun _ _ _ hne hflush hmargin hmoved => dedent_moved hne hflush hmargin hmoved, ?_⟩
  intro lines hlines shown
  obtain ⟨before, after, hsplit, hbefore, hafter, hfirst, hlast⟩ := exists_core lines
  by_cases hcore : core lines = []
  · have hempty : dedent lines = [] := dedent_of_core hcore
    have hblank := allBlank_of_core hcore
    refine ⟨Or.inl hempty, ?_, Or.inl ⟨hblank, hempty⟩⟩
    change dedent (splitLines (dedent lines)) = dedent lines
    rw [hempty]
    rfl
  · have hshown : shown = dedentLines lines := splitLines_dedent hlines hcore
    have hflush : Flush shown := by
      rw [hshown]
      exact flush_moveLeft hfirst hlast
    refine ⟨Or.inr hflush, ?_, Or.inr ⟨before, core lines, after, hsplit, hbefore, hafter, ?_⟩⟩
    · rw [dedent_moved (splitOn_ne_nil _ _) hflush rfl (moved_self shown)]
      exact joinWith_splitOn '\n' (dedent lines)
    · rw [hshown]
      exact shownAs_moveLeft (sharedIndent_spec (exists_solid hcore hfirst)).2

theorem a_block_behind_a_tab_comes_back :
    let lines : List (List Char) := [['a'], [], [' ', ' ', 'b']]
    let moved : List (List Char) :=
      [[' '], ['\t', ' ', 'a'], [' '], ['\t', ' ', ' ', ' ', 'b'], []]
    lines ≠ [] ∧ Flush lines ∧ allBlank ['\t', ' '] = true ∧ Moved ['\t', ' '] lines moved ∧
      (∀ l ∈ moved, '\n' ∉ l) ∧ dedent moved = joinLines lines ∧
      dedent (splitLines (dedent moved)) = dedent moved := by
  intro lines moved
  have hflush : Flush lines :=
    ⟨by decide, by decide, by decide, fun _ => ⟨['a'], List.mem_cons_self, 'a', rfl, by decide⟩⟩
  have hmoved : Moved ['\t', ' '] lines moved := by
    refine ⟨[[' ']], [['\t', ' ', 'a'], [' '], ['\t', ' ', ' ', ' ', 'b']], [[]], rfl, by decide,
      by decide, ?_⟩
    refine .cons ?_ (.cons ?_ (.cons ?_ .nil))
    · rfl
    · rfl
    · rfl
  obtain ⟨hback, hshown⟩ := lines_are_shown_at_the_left
  have hbreaks : ∀ l ∈ moved, '\n' ∉ l := by decide
  exact ⟨by decide, hflush, by decide, hmoved, hbreaks,
    hback _ lines moved (by decide) hflush (by decide) hmoved, (hshown moved hbreaks).2.1⟩

end Sourcebook.Snippet
