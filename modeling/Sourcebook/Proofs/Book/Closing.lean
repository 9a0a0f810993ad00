-- What the snippets of a text leave among all that it adds: each of them code or a warning, at the
-- line that ends it, and nothing else that looks like either.
import Mathlib
import Sourcebook.Proofs.Book.Captures

namespace Sourcebook

/-! ## What comes of a snippet among all that a text adds -/

/-- The warning says that a snippet of the file was dropped. -/
def Notice.isDrop (source : Location) : Notice → Bool
  | .warning text =>
    match Directive.expect (Location.text source ++ ":").toList text.toList with
    | some rest =>
      let said := rest.dropWhile Char.isDigit
      ": snippet '".toList.isPrefixOf said && "' outside a chapter dropped".toList.isSuffixOf said
    | none => false
  | .detail _ => false

/-- The event is what comes of a snippet of the file: its code, which has no label of its own, or
the warning that it was dropped. -/
def Event.ofSnippet (source : Location) : Event → Bool
  | .code _ _ c _ => c.title.isNone
  | .notice n => n.isDrop source
  | _ => false

theorem Directive.expect_append (w s : List Char) : Directive.expect w (w ++ s) = some s := by
  induction w with
  | nil => rfl
  | cons c w ih => simp [Directive.expect, ih]

theorem isDrop_at (source : Location) (n : Nat) (text : String) :
    (Notice.warning (Location.text source ++ ":" ++ toString n ++ ": " ++ text)).isDrop source =
      ("snippet '".toList.isPrefixOf text.toList &&
        "' outside a chapter dropped".toList.isSuffixOf (": ".toList ++ text.toList)) := by
  have hdigits : ∀ c ∈ (toString n).toList, c.isDigit = true := by
    intro c hc
    rw [show (toString n).toList = Nat.toDigits 10 n from (String.ofList_eq.mp rfl).symm] at hc
    exact Nat.isDigit_of_mem_toDigits (by decide) (by decide) hc
  have hlist : (Location.text source ++ ":" ++ toString n ++ ": " ++ text).toList =
      (Location.text source ++ ":").toList ++ ((toString n).toList ++ (": ".toList ++ text.toList)) := by
    simp only [String.toList_append, List.append_assoc]
  have hcolon : (": ".toList ++ text.toList).dropWhile Char.isDigit = ": ".toList ++ text.toList := rfl
  unfold Notice.isDrop
  dsimp only
  rw [hlist, Directive.expect_append]
  dsimp only
  rw [List.dropWhile_append_of_pos hdigits, hcolon]
  rfl

namespace FileState

variable {source : Location} {before : List (List Char)} {s : FileState} {n : Nat} {line : List Char}

theorem ofSnippet_warn (s : FileState) (n : Nat) (text : String) :
    (s.warn n text).ofSnippet s.source =
      ("snippet '".toList.isPrefixOf text.toList &&
        "' outside a chapter dropped".toList.isSuffixOf (": ".toList ++ text.toList)) :=
  isDrop_at s.source n text

/-- A warning that begins with other words is about something else. -/
theorem ofSnippet_warn_of_begins {text : String}
    (h : "snippet '".toList.isPrefixOf text.toList = false) :
    (s.warn n text).ofSnippet s.source = false := by
  rw [ofSnippet_warn, h, Bool.false_and]

theorem ofSnippet_warn_unclosed (s : FileState) (n : Nat) (other id : String) :
    (s.warn n ("snippet '" ++ other ++ "' was not closed before '@start: " ++ id ++ "'")).ofSnippet
      s.source = false := by
  rw [ofSnippet_warn]
  simp only [String.toList_append, List.isSuffixOf, List.reverse_append]
  rw [Bool.and_eq_false_iff]
  exact Or.inr rfl

theorem closing_told (s : FileState) (n : Nat) : ∀ e ∈ s.closing n, e.ofSnippet s.source = true := by
  intro e he
  unfold closing at he
  split at he
  · cases he
  · split at he
    · rw [List.mem_singleton.mp he, ofSnippet_warn, Bool.and_eq_true, List.isPrefixOf_iff_prefix,
        List.isSuffixOf_iff_suffix, String.toList_append, String.toList_append]
      exact ⟨List.append_assoc _ _ _ ▸ List.prefix_append _ _,
        (List.suffix_append _ _).trans (List.suffix_append _ _)⟩
    · rw [List.mem_singleton.mp he]
      rfl

/-- A search only warns of files that would do as well. -/
theorem isDrop_of_found {shelf : Shelf} {target : String} {current : Path} {found : Shelf.Found}
    {w : String} (h : shelf.find target current = .ok found) (hw : found.warning = some w)
    (source : Location) : (Notice.warning w).isDrop source = false := by
  have hambiguous : ∀ (a : Shelf) (files : List Location),
      (Notice.warning (a.ambiguous target files)).isDrop source = false := by
    intro a files
    obtain ⟨said, hsaid⟩ : ∃ said, (a.ambiguous target files).toList = 'A' :: said := by
      unfold Shelf.ambiguous
      simp only [String.toList_append, List.append_assoc]
      exact ⟨_, rfl⟩
    obtain ⟨place, hplace⟩ : ∃ place, (Location.text source ++ ":").toList = '/' :: place := by
      unfold Location.text
      simp only [String.toList_append, List.append_assoc]
      exact ⟨_, rfl⟩
    unfold Notice.isDrop
    dsimp only
    rw [hsaid, hplace]
    rfl
  rcases Shelf.find_cases h with ⟨x, rfl, -⟩ | h
  · cases hw
  · obtain ⟨-, -, -, -, hwarning⟩ := Shelf.of_amongListed h
    obtain ⟨files, rfl⟩ := hwarning w hw
    exact hambiguous _ files

/-- Among what an include adds there is nothing that a snippet leaves. -/
theorem embedIn_told {chapter target : String} {raw : Option String} {e : Event}
    (he : e ∈ (s.embedIn n chapter target raw).events) : e.ofSnippet s.source = false := by
  have hoptions : ∀ e ∈ (s.optionsOf n raw).2, e.ofSnippet s.source = false := by
    intro e he
    unfold optionsOf at he
    split at he
    · cases he
    · rw [List.mem_singleton.mp he]
      exact ofSnippet_warn_of_begins (by simp only [String.toList_append]; rfl)
  unfold embedIn at he
  dsimp only at he
  split at he
  · exact hoptions e he
  · next found hfound =>
    have hnews : ∀ e ∈ (s.optionsOf n raw).2 ++ listing found.shelf
        ++ (found.warning.map (fun w => Event.notice (.warning w))).toList,
        e.ofSnippet s.source = false := by
      intro e he
      rcases List.mem_append.mp he with he | he
      · rcases List.mem_append.mp he with he | he
        · exact hoptions e he
        · obtain ⟨files, -, rfl⟩ := Option.map_eq_some_iff.mp (Option.mem_toList.mp he)
          rfl
      · obtain ⟨w, hw, rfl⟩ := Option.map_eq_some_iff.mp (Option.mem_toList.mp he)
        exact isDrop_of_found hfound hw s.source
    split at he
    · rcases List.mem_append.mp he with he | he
      · exact hnews e he
      · rw [List.mem_singleton.mp he]
        exact ofSnippet_warn_of_begins (by simp only [String.toList_append]; rfl)
    · rcases List.mem_append.mp he with he | he
      · exact hnews e he
      · unfold embedFound at he
        dsimp only at he
        split at he
        · rw [List.mem_singleton.mp he]
          exact ofSnippet_warn_of_begins (by simp only [String.toList_append]; rfl)
        · split at he
          · rw [List.mem_singleton.mp he]
            exact ofSnippet_warn_of_begins (by simp only [String.toList_append]; rfl)
          · rw [List.mem_singleton.mp he]
            rfl

theorem enter_told {title : String} {e : Event} (he : e ∈ (s.enter n title).events) :
    e.ofSnippet s.source = false := by
  unfold enter at he
  split at he
  · rw [List.mem_singleton.mp he]
    rfl
  · rw [List.mem_singleton.mp he]
    rfl

theorem rank_told {raw : List Char} {e : Event} (he : e ∈ (s.rank n raw).events) :
    e.ofSnippet s.source = false := by
  unfold rank at he
  split at he
  · rw [List.mem_singleton.mp he]
    rfl
  · dsimp only at he
    split at he
    · rw [List.mem_singleton.mp he]
      rfl
    · rcases List.mem_cons.mp he with rfl | he
      · exact ofSnippet_warn_of_begins (by simp only [String.toList_append]; rfl)
      · rw [List.mem_singleton.mp he]
        rfl

theorem prose_told {e : Event} (he : e ∈ s.prose line) : e.ofSnippet s.source = false := by
  unfold prose at he
  split at he
  · cases he
  · rw [List.mem_singleton.mp he]
    rfl

/-! ## Lines that end snippets -/

theorem filter_ofSnippet_eq_nil {es : List Event} (h : ∀ e ∈ es, e.ofSnippet source = false) :
    es.filter (Event.ofSnippet source) = [] :=
  List.filter_eq_nil_iff.mpr fun e he => by rw [h e he]; exact Bool.false_ne_true

theorem filter_closing (s : FileState) (n : Nat) :
    (s.closing n).filter (Event.ofSnippet s.source) = s.closing n :=
  List.filter_eq_self.mpr (s.closing_told n)

theorem closing_of_none (h : s.capture = none) (n : Nat) : s.closing n = [] := by
  unfold closing
  rw [h]

theorem embed_told (s : FileState) (n : Nat) (target : String) (raw : Option String) :
    (s.embed n target raw).events.filter (Event.ofSnippet s.source) = s.closing n := by
  unfold embed
  dsimp only
  split
  · rw [go, List.filter_append, filter_closing, filter_ofSnippet_eq_nil fun e he => ?_,
      List.append_nil]
    rw [List.mem_singleton.mp he]
    exact ofSnippet_warn_of_begins (by simp only [String.toList_append]; rfl)
  · rw [List.filter_append, filter_closing]
    refine (congrArg (s.closing n ++ ·) (filter_ofSnippet_eq_nil fun e he => ?_)).trans
      (List.append_nil _)
    exact embedIn_told (s := s.closed) he

theorem start_told (s : FileState) (n : Nat) (id : String) :
    (s.start n id).events.filter (Event.ofSnippet s.source) = s.closing n := by
  unfold start
  cases hc : s.capture with
  | none => exact (closing_of_none hc n).symm
  | some c =>
    simp only [go]
    rw [List.filter_cons_of_neg, filter_closing]
    rw [ofSnippet_warn_unclosed]
    exact Bool.false_ne_true

theorem finish_told (s : FileState) (n : Nat) (id : String) :
    (s.finish n id).events.filter (Event.ofSnippet s.source) =
      if s.capture.any (fun c => decide (id = c.1)) then s.closing n else [] := by
  unfold finish
  cases hc : s.capture with
  | none =>
    refine filter_ofSnippet_eq_nil fun e he => ?_
    rw [List.mem_singleton.mp he]
    exact ofSnippet_warn_of_begins (by simp only [String.toList_append]; rfl)
  | some c =>
    dsimp only
    by_cases hid : c.1 = id
    · simp [hid, go, filter_closing]
    · have hne : ¬ id = c.1 := fun h => hid h.symm
      simp only [if_neg hid, Option.any_some, hne, decide_false, Bool.false_eq_true, if_false, go]
      refine filter_ofSnippet_eq_nil fun e he => ?_
      rw [List.mem_singleton.mp he]
      exact ofSnippet_warn_of_begins (by simp only [String.toList_append]; rfl)

/-- The events of a line that come of a snippet are those of closing the one that it ends. -/
theorem readLine_told (s : FileState) (n : Nat) (line : List Char) :
    (s.readLine n line).events.filter (Event.ofSnippet s.source) =
      if s.capture.any (fun c => Directive.ends c.1 line) then s.closing n else [] := by
  have hcloses : (if s.capture.any (fun _ => true) then s.closing n else []) = s.closing n := by
    cases hc : s.capture with
    | none => exact (closing_of_none hc n).symm
    | some c => rfl
  unfold readLine Directive.ends
  cases Directive.ofLine line with
  | declare id title => simp [go, Event.ofSnippet]
  | enter title =>
    simp only [Option.any_false, Bool.false_eq_true, if_false]
    exact filter_ofSnippet_eq_nil fun e he => enter_told he
  | rank raw =>
    simp only [Option.any_false, Bool.false_eq_true, if_false]
    exact filter_ofSnippet_eq_nil fun e he => rank_told he
  | embed target options => exact (s.embed_told n _ _).trans hcloses.symm
  | start id => exact (s.start_told n _).trans hcloses.symm
  | finish id => exact s.finish_told n _
  | ignored => simp [go]
  | prose =>
    simp only [Option.any_false, Bool.false_eq_true, if_false]
    exact filter_ofSnippet_eq_nil fun e he => prose_told he
  | plain => simp [go]

/-! ## The whole text -/

/-- The state behind lines of a file. -/
structure Behind (l : Location) (before : List (List Char)) (s : FileState) : Prop where
  source : s.source = l
  language : s.language = Language.ofName (Location.name l)
  chapter : s.chapter = chapterAt before
  heading : s.heading = headingAt before

theorem embed_state (s : FileState) (n : Nat) (target : String) (raw : Option String) :
    ∃ shelf, (s.embed n target raw).state = { s.closed with shelf := shelf } := by
  unfold embed
  dsimp only
  split
  · exact ⟨s.shelf, rfl⟩
  · unfold embedIn
    dsimp only
    split
    · exact ⟨s.shelf, rfl⟩
    · next found _ => split <;> exact ⟨found.shelf, rfl⟩

theorem finish_state (s : FileState) (n : Nat) (id : String) :
    (s.finish n id).state = s ∨ (s.finish n id).state = s.closed := by
  unfold finish
  split
  · exact Or.inl rfl
  · split
    · exact Or.inr rfl
    · exact Or.inl rfl

/-- A line that declares no chapter and enters no section leaves both as they were. -/
theorem readLine_keeps (s : FileState) (n : Nat) (hd : Directive.declared? line = none)
    (he : Directive.entered? line = none) :
    let t := (s.readLine n line).state
    t.source = s.source ∧ t.language = s.language ∧ t.chapter = s.chapter ∧ t.heading = s.heading := by
  unfold readLine
  cases hline : Directive.ofLine line with
  | declare id title => simp [Directive.declared?, hline] at hd
  | enter title => simp [Directive.entered?, hline] at he
  | rank raw =>
    dsimp only
    rw [rank_state]
    exact ⟨rfl, rfl, rfl, rfl⟩
  | embed target options =>
    obtain ⟨shelf, hstate⟩ := s.embed_state n (String.ofList target) (options.map String.ofList)
    dsimp only
    rw [hstate]
    exact ⟨rfl, rfl, rfl, rfl⟩
  | finish id =>
    dsimp only
    rcases s.finish_state n (String.ofList id) with hstate | hstate
    · rw [hstate]
      exact ⟨rfl, rfl, rfl, rfl⟩
    · rw [hstate]
      exact ⟨rfl, rfl, rfl, rfl⟩
  | plain =>
    simp only [go, capturePlain]
    split
    · exact ⟨rfl, rfl, rfl, rfl⟩
    · split <;> exact ⟨rfl, rfl, rfl, rfl⟩
  | start id => exact ⟨rfl, rfl, rfl, rfl⟩
  | ignored => exact ⟨rfl, rfl, rfl, rfl⟩
  | prose => exact ⟨rfl, rfl, rfl, rfl⟩

theorem readLine_declare_behind (h : Behind source before s) {id title : List Char}
    (hline : Directive.ofLine line = .declare id title) :
    Behind source (before ++ [line]) (s.readLine n line).state := by
  have hd : Directive.declared? line = some (String.ofList id) := by simp [Directive.declared?, hline]
  have he : Directive.entered? line = none := by simp [Directive.entered?, hline]
  unfold readLine
  rw [hline]
  exact ⟨h.source, h.language, (chapterAt_snoc_of_some hd).symm,
    h.heading.trans (headingAt_snoc_of_not_entered he).symm⟩

theorem readLine_enter_behind (h : Behind source before s) {title : List Char}
    (hline : Directive.ofLine line = .enter title) :
    Behind source (before ++ [line]) (s.readLine n line).state := by
  have hd : Directive.declared? line = none := by simp [Directive.declared?, hline]
  have he : Directive.entered? line = some (String.ofList title) := by
    simp [Directive.entered?, hline]
  have hchapter := h.chapter
  unfold readLine
  rw [hline]
  dsimp only [enter]
  cases hc : s.chapter with
  | none =>
    rw [hc] at hchapter
    exact ⟨h.source, h.language, h.chapter.trans (chapterAt_snoc_of_none hd).symm,
      h.heading.trans (headingAt_snoc_of_no_chapter hchapter.symm).symm⟩
  | some chapter =>
    rw [hc] at hchapter
    refine ⟨h.source, h.language, hchapter.trans (chapterAt_snoc_of_none hd).symm, ?_⟩
    rw [headingAt_snoc hchapter.symm, he]
    rfl

theorem readLine_behind (h : Behind source before s) :
    Behind source (before ++ [line]) (s.readLine n line).state := by
  cases hline : Directive.ofLine line with
  | declare id title => exact readLine_declare_behind h hline
  | enter title => exact readLine_enter_behind h hline
  | _ =>
    have hd : Directive.declared? line = none := by simp [Directive.declared?, hline]
    have he : Directive.entered? line = none := by simp [Directive.entered?, hline]
    obtain ⟨hsource, hlanguage, hchapter, hheading⟩ := s.readLine_keeps n hd he
    exact ⟨hsource.trans h.source, hlanguage.trans h.language,
      (hchapter.trans h.chapter).trans (chapterAt_snoc_of_none hd).symm,
      (hheading.trans h.heading).trans (headingAt_snoc_of_not_entered he).symm⟩

/-- The snippet that is open behind a line. -/
theorem readLine_capture (s : FileState) (n : Nat) (line : List Char) :
    (s.readLine n line).state.capture =
      match Directive.ofLine line with
      | .start id => some (String.ofList id, [])
      | _ => s.capture.bind fun c =>
        if Directive.ends c.1 line then none
        else some (c.1, if Directive.isCode line then c.2 ++ [line] else c.2) := by
  unfold readLine Directive.ends
  simp only [Directive.isCode_eq]
  cases hline : Directive.ofLine line with
  | declare id title => simp [go]
  | enter title =>
    unfold enter
    cases s.chapter <;> simp [go]
  | rank raw =>
    dsimp only
    rw [rank_state]
    simp
  | embed target options =>
    obtain ⟨shelf, hstate⟩ := s.embed_state n (String.ofList target) (options.map String.ofList)
    dsimp only
    rw [hstate]
    simp [closed]
  | start id => rfl
  | finish id =>
    unfold finish
    cases hc : s.capture with
    | none => simp [go, hc]
    | some c =>
      dsimp only
      by_cases hid : c.1 = String.ofList id
      · simp [hid, go, closed]
      · have hne : ¬ String.ofList id = c.1 := fun h => hid h.symm
        simp [hid, hne, go, hc]
  | ignored => simp [go]
  | prose => simp [go]
  | plain =>
    unfold capturePlain
    cases hc : s.capture with
    | none => simp [go, hc]
    | some c => cases hm : Directive.isMarked line <;> simp [go, hc]

/-- Closing the open snippet behind lines. -/
theorem closing_eq (total : Nat) (h : Behind source before s) {c : String × List (List Char)}
    (hc : s.capture = some c) (hn : n = min (before.length + 1) total) :
    s.closing n = [outcomeAt source total c.1 before c.2] := by
  unfold closing outcomeAt
  rw [hc, ← h.chapter]
  cases s.chapter with
  | none =>
    dsimp only [warn, place]
    rw [h.source, hn]
    rfl
  | some chapter =>
    dsimp only
    rw [h.heading, h.language, h.source]
    rfl

/-- What comes of the snippet that is open, when the other lines are read. -/
def pending (source : Location) (total : Nat) (before rest : List (List Char)) (s : FileState) :
    List Event :=
  (s.capture.map fun c =>
    let body := rest.takeWhile (!Directive.ends c.1 ·)
    outcomeAt source total c.1 (before ++ body) (c.2 ++ body.filter Directive.isCode)).toList

/-- The open snippet is closed by a line, or goes on behind it. -/
theorem pending_cons {total : Nat} {rest : List (List Char)} (h : Behind source before s)
    (hn : n = before.length + 1) (htotal : n ≤ total) :
    pending source total before (line :: rest) s =
      if s.capture.any (fun c => Directive.ends c.1 line) then s.closing n
      else (s.capture.map fun c =>
        let kept := if Directive.isCode line then c.2 ++ [line] else c.2
        let body := rest.takeWhile (!Directive.ends c.1 ·)
        outcomeAt source total c.1 (before ++ [line] ++ body)
          (kept ++ body.filter Directive.isCode)).toList := by
  unfold pending
  cases hc : s.capture with
  | none => simp
  | some c =>
    by_cases hends : Directive.ends c.1 line = true
    · rw [closing_eq total h hc (by omega)]
      simp [hends]
    · rw [Bool.not_eq_true] at hends
      cases hcode : Directive.isCode line <;> simp [hends, hcode]

/-- The step: what is pending before a line is left at the line, or is pending behind it; and a
start makes one more snippet pending. -/
theorem readLine_pending {total : Nat} {rest : List (List Char)} (h : Behind source before s)
    (hn : n = before.length + 1) (htotal : n ≤ total) :
    (if s.capture.any (fun c => Directive.ends c.1 line) then s.closing n else [])
        ++ pending source total (before ++ [line]) rest (s.readLine n line).state
        ++ (captures (before ++ [line]) rest).map (Capture.outcome source total) =
      pending source total before (line :: rest) s
        ++ (captures before (line :: rest)).map (Capture.outcome source total) := by
  rw [pending_cons h hn htotal, pending, readLine_capture, captures]
  cases hline : Directive.ofLine line with
  | start id =>
    have hends : ∀ name, Directive.ends name line = true := ends_of_start hline
    cases hc : s.capture with
    | none => simp [Capture.outcome, Capture.seen, Capture.kept]
    | some c => simp [hends, Capture.outcome, Capture.seen, Capture.kept]
  | _ =>
    cases hc : s.capture with
    | none => simp
    | some c => cases hends : Directive.ends c.1 line <;> simp [hends]

/-- What the snippets of a text leave is what their lines say, one after the other. -/
theorem readLines_told {total : Nat} {rest : List (List Char)} (h : Behind source before s)
    (hn : n = before.length + 1) (htotal : total = before.length + rest.length)
    (hok : (s.readLines n rest).2 = none) :
    (s.readLines n rest).1.filter (Event.ofSnippet source) =
      pending source total before rest s
        ++ (captures before rest).map (Capture.outcome source total) := by
  induction rest generalizing s n before with
  | nil =>
    simp only [readLines, captures, List.map_nil, List.append_nil, pending, List.takeWhile_nil,
      List.filter_nil]
    rw [← h.source, List.filter_eq_self.mpr (s.closing_told (n - 1)), h.source]
    cases hc : s.capture with
    | none => simp [closing, hc]
    | some c =>
      rw [closing_eq total h hc]
      · simp
      · simp at htotal
        omega
  | cons line rest ih =>
    simp only [readLines] at hok ⊢
    split at hok
    · cases hok
    · next herror =>
      simp only
      have hrest := ih (readLine_behind h) (by simp; omega) (by simp at htotal ⊢; omega) hok
      rw [List.filter_append, hrest, ← h.source, readLine_told, h.source, ← List.append_assoc]
      exact readLine_pending h hn (by simp at htotal; omega)

end FileState

/-- In a text that is read to its end, every snippet leaves exactly one thing, in their order. -/
theorem Event.ofText_told {shelf : Shelf} {source : Location} {text : List Char}
    (hok : (Event.ofText shelf source text).2 = none) :
    (Event.ofText shelf source text).1.filter (Event.ofSnippet source) =
      (captures [] (sourceLines text)).map (Capture.outcome source (sourceLines text).length) := by
  have hlanguage : (FileState.ofFile shelf source).language = Language.ofName (Location.name source) := by
    rw [FileState.ofFile]
  exact FileState.readLines_told ⟨rfl, hlanguage, rfl, rfl⟩ rfl (by simp) hok

end Sourcebook
