-- Fenced code and tabs are read back as they were written, whatever the code holds: no line inside
-- is long enough to close the fence around it.
import Mathlib
import Sourcebook.Page.Fence
import Sourcebook.Proofs.Text.Pieces

namespace Sourcebook

open Text

namespace Fence

/-! ## Runs of marks -/

theorem le_longestRun (current : Nat) (s : List Char) : current ≤ longestRun current s := by
  induction s generalizing current with
  | nil => exact Nat.le_refl current
  | cons c s ih =>
    rw [longestRun]
    split
    · exact (Nat.le_succ current).trans (ih _)
    · exact Nat.le_max_left _ _

theorem longestRun_mono {k n : Nat} (h : k ≤ n) (s : List Char) : longestRun k s ≤ longestRun n s := by
  induction s generalizing k n with
  | nil => exact h
  | cons c s ih =>
    rw [longestRun, longestRun]
    split
    · exact ih (Nat.succ_le_succ h)
    · exact max_le_max_right _ h

theorem longestRun_replicate (current k : Nat) (s : List Char) :
    current + k ≤ longestRun current (List.replicate k fenceMark ++ s) := by
  induction k generalizing current with
  | zero => exact le_longestRun current s
  | succ k ih =>
    rw [List.replicate_succ, List.cons_append, longestRun, if_pos rfl]
    have hmore := ih (current + 1)
    omega

theorem longestRun_append (current : Nat) (a s : List Char) :
    longestRun 0 s ≤ longestRun current (a ++ s) := by
  induction a generalizing current with
  | nil => exact longestRun_mono (Nat.zero_le current) s
  | cons c a ih =>
    rw [List.cons_append, longestRun]
    split
    · exact ih _
    · exact (ih 0).trans (Nat.le_max_right _ _)

/-- The fence is longer than every run of marks inside. -/
theorem lt_size {content : List Char} {k : Nat} (h : List.replicate k fenceMark <:+: content) :
    k < size content := by
  obtain ⟨a, b, rfl⟩ := h
  rw [List.append_assoc]
  have hrun := longestRun_replicate 0 k b
  have hall := longestRun_append 0 a (List.replicate k fenceMark ++ b)
  unfold size
  omega

/-! ## Reading a fence -/

/-- No line of the content closes the fence. -/
theorem not_isClosing {content line : List Char} (h : line ∈ splitLines content) :
    isClosing (size content) line = false := by
  rw [Bool.eq_false_iff]
  intro hclose
  obtain ⟨hlong, hall⟩ := Bool.and_eq_true_iff.mp hclose
  have hmarks : line = List.replicate line.length fenceMark :=
    List.eq_replicate_of_mem fun c hc => by simpa using List.all_eq_true.mp hall c hc
  have hlt := lt_size (hmarks ▸ infix_of_mem_splitOn h)
  exact absurd (of_decide_eq_true hlong) (Nat.not_le.mpr hlt)

theorem isClosing_marks (content : List Char) : isClosing (size content) (marks content) = true := by
  simp [isClosing, marks]

theorem body_append {n : Nat} {lines : List (List Char)} {closing : List Char}
    (h : ∀ line ∈ lines, isClosing n line = false) (hclosing : isClosing n closing = true)
    (rest : List (List Char)) : body n (lines ++ closing :: rest) = some (lines, rest) := by
  induction lines with
  | nil => rw [List.nil_append, body, if_pos hclosing]
  | cons line lines ih =>
    rw [List.cons_append, body, if_neg (by rw [h line List.mem_cons_self]; decide),
      ih fun l hl => h l (List.mem_cons_of_mem _ hl)]
    rfl

/-- The opening line gives the length of the fence and the language behind it. -/
theorem opening_line {language : List Char} (hmark : fenceMark ∉ language) (content : List Char) :
    (marks content ++ language).takeWhile (· = fenceMark) = marks content := by
  have hmarks : ∀ c ∈ marks content, decide (c = fenceMark) = true := by
    intro c hc
    exact decide_eq_true (List.eq_of_mem_replicate hc)
  have hnone : language.takeWhile (· = fenceMark) = [] := by
    cases language with
    | nil => rfl
    | cons c s =>
      rw [List.mem_cons, not_or] at hmark
      simp [Ne.symm hmark.1]
  rw [List.takeWhile_append_of_pos hmarks, hnone, List.append_nil]

theorem read_lines {language : List Char} (hmark : fenceMark ∉ language) (content : List Char)
    (rest : List (List Char)) :
    read ((marks content ++ language) :: (splitLines content ++ marks content :: rest)) =
      some (language, content, rest) := by
  have hlength : (marks content).length = size content := List.length_replicate
  have hthree : ¬ size content < 3 := Nat.not_lt.mpr (Nat.le_max_left _ _)
  have hbody := body_append (fun _ => not_isClosing) (isClosing_marks content) rest
  have hcontent : joinLines (splitLines content) = content := joinWith_splitOn _ content
  simp only [read, opening_line hmark, hlength, if_neg hthree, hbody, Option.map_some, hcontent]
  rw [← hlength, List.drop_left]

theorem feed_not_mem_marks (content : List Char) : '\n' ∉ marks content :=
  fun h => absurd (List.eq_of_mem_replicate h) (by decide)

/-- The lines of fenced code, with what stands behind it. -/
theorem splitLines_write {language : List Char} (hline : '\n' ∉ language) (content rest : List Char) :
    splitLines (write language content ++ rest) =
      (marks content ++ language) :: (splitLines content ++ splitLines (marks content ++ rest)) := by
  have hopen : '\n' ∉ marks content ++ language := by
    rw [List.mem_append, not_or]
    exact ⟨feed_not_mem_marks content, hline⟩
  unfold splitLines write
  rw [List.append_assoc, List.cons_append, splitOn_append hopen, List.append_assoc, List.cons_append,
    splitOn_append_cons]

/-- Fenced code is read back. -/
theorem read_write {language : List Char} (hline : '\n' ∉ language) (hmark : fenceMark ∉ language)
    (content : List Char) :
    read (splitLines (write language content)) = some (language, content, []) := by
  have hlines := splitLines_write hline content []
  rw [List.append_nil, List.append_nil,
    show splitLines (marks content) = [marks content] from
      splitOn_of_not_mem (feed_not_mem_marks content)] at hlines
  rw [hlines, read_lines hmark]

/-- What follows fenced code is left. -/
theorem read_write_line {language : List Char} (hline : '\n' ∉ language)
    (hmark : fenceMark ∉ language) (content rest : List Char) :
    read (splitLines (write language content ++ '\n' :: rest)) =
      some (language, content, splitLines rest) := by
  have hclosing : splitLines (marks content ++ '\n' :: rest) = marks content :: splitLines rest :=
    splitOn_append (feed_not_mem_marks content) rest
  rw [splitLines_write hline, hclosing, read_lines hmark]

end Fence

namespace Tabs

/-- The title that code is shown with: its own, or the name of its file. -/
def shownTitle (c : Code) : String :=
  if c.title.getD "" = "" then (Path.ofString c.sourceFile).name else c.title.getD ""

/-- What is read of code that was written as a tab. -/
def Tab.ofCode (c : Code) : Tab where
  label := (shownTitle c).toList.map fun x => if x = '"' then '\'' else x
  language := c.language.toList
  content := c.content.toList

/-- The language of code can stand behind a fence. -/
def Named (c : Code) : Prop := '\n' ∉ c.language.toList ∧ fenceMark ∉ c.language.toList

theorem titleOf_eq (c : Code) : titleOf c = (shownTitle c).toList := by
  unfold titleOf shownTitle
  cases c.title with
  | none => rfl
  | some t =>
    by_cases ht : t = ""
    · simp [ht]
    · simp [ht]

theorem label_titleOf (c : Code) : label (titleOf c) = (Tab.ofCode c).label := by
  rw [titleOf_eq]
  rfl

/-! ## Writing -/

/-- The lines of tabs, to the end of the container. -/
def inside (tabs : List Code) : List Char := joinLines (tabs.flatMap writeTab ++ [ending])

theorem write_eq (tabs : List Code) : write tabs = opening ++ '\n' :: inside tabs :=
  joinWith_cons (by simp) opening

theorem inside_cons (c : Code) (tabs : List Code) : inside (c :: tabs) =
    tabStart ++ label (titleOf c) ++ tabStartEnd ++ '\n' ::
      (Fence.write c.language.toList c.content.toList ++ '\n' :: (tabEnd ++ '\n' :: inside tabs)) := by
  have hrest : tabs.flatMap writeTab ++ [ending] ≠ [] := by simp
  unfold inside joinLines
  rw [List.flatMap_cons, writeTab, List.append_assoc, List.cons_append, joinWith_cons (by simp),
    List.cons_append, joinWith_cons (by simp), List.cons_append, List.nil_append, joinWith_cons hrest]

/-- The fourth character tells a tab from the end of the container. -/
theorem inside_cons_ne (c : Code) (tabs : List Code) : inside (c :: tabs) ≠ ending := by
  intro he
  have hfour := congrArg (List.take 4) he
  rw [inside_cons] at hfour
  simp only [List.append_assoc] at hfour
  rw [List.take_append_of_le_length (by decide)] at hfour
  exact absurd hfour (by decide)

theorem length_lt_inside (tabs : List Code) : tabs.length < (inside tabs).length := by
  induction tabs with
  | nil => decide
  | cons c tabs ih =>
    rw [inside_cons]
    simp only [List.length_append, List.length_cons]
    omega

/-! ## Reading -/

theorem after?_append (front s : List Char) : after? front (front ++ s) = some s := by
  simp [after?]

theorem quote_not_mem_label (title : List Char) : '"' ∉ label title := by
  intro h
  obtain ⟨c, -, hc⟩ := List.mem_map.mp h
  split at hc
  · cases hc
  · next hne => exact hne hc

/-- A label is read up to its closing quote. -/
theorem readLabel_write (title rest : List Char) :
    readLabel (tabStart ++ label title ++ tabStartEnd ++ '\n' :: rest) = some (label title, rest) := by
  have hquotes : ∀ c ∈ label title, (c != '"') = true := by
    intro c hc
    exact bne_iff_ne.mpr fun he => quote_not_mem_label title (he ▸ hc)
  have hsplit : tabStart ++ label title ++ tabStartEnd ++ '\n' :: rest =
      tabStart ++ (label title ++ ((tabStartEnd ++ ['\n']) ++ rest)) := by simp
  have hdrop : (label title ++ ((tabStartEnd ++ ['\n']) ++ rest)).dropWhile (· != '"') =
      (tabStartEnd ++ ['\n']) ++ rest := List.dropWhile_append_of_pos hquotes
  have htake : (label title ++ ((tabStartEnd ++ ['\n']) ++ rest)).takeWhile (· != '"') =
      label title := by
    rw [List.takeWhile_append_of_pos hquotes]
    exact List.append_nil _
  rw [readLabel, hsplit, after?_append]
  simp only [Option.bind_eq_bind, Option.bind_some, hdrop, htake, after?_append]
  rfl

/-- A tab is read back, and what follows it is left. -/
theorem readTab_write {c : Code} (h : Named c) (rest : List Char) :
    readTab (tabStart ++ label (titleOf c) ++ tabStartEnd ++ '\n' ::
      (Fence.write c.language.toList c.content.toList ++ '\n' :: (tabEnd ++ '\n' :: rest))) =
      some (Tab.ofCode c, rest) := by
  have hfeed : '\n' ∉ tabEnd := by decide
  have hend : splitLines (tabEnd ++ '\n' :: rest) = tabEnd :: splitLines rest :=
    splitOn_append hfeed rest
  have hback : joinLines (splitLines rest) = rest := joinWith_splitOn _ rest
  rw [readTab, readLabel_write]
  simp only [Option.bind_eq_bind, Option.bind_some, Fence.read_write_line h.1 h.2, hend, if_true,
    hback, label_titleOf]
  rfl

theorem readTabs_inside {tabs : List Code} (h : ∀ c ∈ tabs, Named c) {n : Nat}
    (hn : tabs.length < n) : readTabs n (inside tabs) = some (tabs.map Tab.ofCode) := by
  induction tabs generalizing n with
  | nil =>
    cases n with
    | zero => exact absurd hn (Nat.not_lt_zero _)
    | succ n => exact if_pos rfl
  | cons c tabs ih =>
    cases n with
    | zero => exact absurd hn (Nat.not_lt_zero _)
    | succ n =>
      rw [readTabs, if_neg (inside_cons_ne c tabs), inside_cons, readTab_write (h c List.mem_cons_self)]
      simp only [Option.bind_eq_bind, Option.bind_some,
        ih (fun d hd => h d (List.mem_cons_of_mem _ hd)) (Nat.lt_of_succ_lt_succ hn)]
      rfl

theorem read_write {tabs : List Code} (h : ∀ c ∈ tabs, Named c) :
    read (write tabs) = some (tabs.map Tab.ofCode) := by
  have hsplit : opening ++ '\n' :: inside tabs = (opening ++ ['\n']) ++ inside tabs := by simp
  rw [read, write_eq, hsplit, after?_append]
  exact readTabs_inside h (length_lt_inside tabs)

end Tabs

/-! ## Blocks -/

/-- Code between fences and code in tabs is read back from the page as it was, whatever it holds. -/
theorem Block.code_reads_back :
    (∀ c : Code, '\n' ∉ c.language.toList → fenceMark ∉ c.language.toList →
      Fence.read (splitLines (Block.code c).render.toList) =
        some (c.language.toList, c.content.toList, [])) ∧
    (∀ group members, (∀ c ∈ members, '\n' ∉ c.language.toList ∧ fenceMark ∉ c.language.toList) →
      Tabs.read (Block.tabs group members).render.toList = some (members.map Tabs.Tab.ofCode)) := by
  refine ⟨fun c hline hmark => ?_, fun group members h => ?_⟩
  · rw [Block.render, String.toList_ofList]
    exact Fence.read_write hline hmark _
  · rw [Block.render, String.toList_ofList]
    exact Tabs.read_write h

def fencedSample : Code :=
  ⟨"x", "```js\n\x7b% endtab %\x7d\n````\n", "ts", "/p/a.ts", some "Say \"hi\"\nnow"⟩

def quotedSample : Code := ⟨"y", "", "sol", "/p/\"B\".sol", none⟩

/-- Fences and the end of a tab inside of code, a title on two lines and a quoted file name. -/
theorem Block.a_fence_in_a_tab_reads_back :
    ('\n' ∉ fencedSample.language.toList ∧ fenceMark ∉ fencedSample.language.toList) ∧
    Fence.read (splitLines (Block.code fencedSample).render.toList) =
      some ("ts".toList, fencedSample.content.toList, []) ∧
    (∀ c ∈ [fencedSample, quotedSample],
      '\n' ∉ c.language.toList ∧ fenceMark ∉ c.language.toList) ∧
    Tabs.read (Block.tabs "g" [fencedSample, quotedSample]).render.toList =
      some [⟨"Say 'hi'\nnow".toList, "ts".toList, fencedSample.content.toList⟩,
        ⟨"'B'.sol".toList, "sol".toList, []⟩] := by
  have hmembers : ∀ c ∈ [fencedSample, quotedSample],
      '\n' ∉ c.language.toList ∧ fenceMark ∉ c.language.toList := by decide
  have hone := hmembers fencedSample List.mem_cons_self
  exact ⟨hone, code_reads_back.1 fencedSample hone.1 hone.2, hmembers,
    (code_reads_back.2 "g" _ hmembers).trans (by decide)⟩

end Sourcebook
