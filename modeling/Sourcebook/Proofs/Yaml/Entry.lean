-- One entry of a title is read: its key, its value, and the end of the mapping that both are in.
import Mathlib
import Sourcebook.Yaml.Document
import Sourcebook.Proofs.Yaml.Plains

namespace Sourcebook.Yaml

open Data (Value)

/-- The tokens of a title. -/
def entryTokens (t : String) (plain : Bool) : List Token :=
  [.blockMapping, .key, .text "title" true, .value, .text t plain, .blockEnd]

namespace Lexer

variable {x y z u : Lexer} {c : Char} {s t rest : List Char} {ts : List Token} {n : Nat}

/-! ## Steps -/

theorem moveTo_here (x : Lexer) : x.moveTo x.cursor.rest = x := by
  simp [moveTo, Cursor.leaving, Cursor.skip]

theorem moveTo_rest (h : x.cursor.rest = s ++ rest) : (x.moveTo rest).cursor.rest = rest := by
  simp [moveTo, Cursor.leaving, Cursor.skip_rest, h]

theorem toToken_eq (hmark : x.cursor.rest.head? ≠ some '\uFEFF') :
    x.toToken =
      if (skipSpace x.inside false x.cursor.rest).2 && !x.inside then
        { x.moveTo (skipSpace x.inside false x.cursor.rest).1 with keyAllowed := true }
      else x.moveTo (skipSpace x.inside false x.cursor.rest).1 := by
  have hno : (x.cursor.index == 0 && x.cursor.rest.head? == some '\uFEFF') = false := by
    simp [hmark]
  unfold toToken
  simp only [hno, Bool.false_eq_true, if_false]
  rfl

theorem toToken_here (hspace : skipSpace x.inside false x.cursor.rest = (x.cursor.rest, false))
    (hmark : x.cursor.rest.head? ≠ some '\uFEFF') : x.toToken = x := by
  rw [toToken_eq hmark, hspace, moveTo_here]
  rfl

/-- A step that reads a token. -/
theorem step_token (hspace : x.toToken = y) (hstop : y.stop = none) (hkeys : y.dropStale = .ok z)
    (hz : z.unwind z.cursor.column = z) (hrest : z.cursor.rest = c :: rest)
    (hread : z.dispatch c rest = .ok u) (hstop' : u.stop = none) : x.step = .ok (.inr u) := by
  unfold step
  simp only [hspace, needs, hstop, hkeys, bind, Except.bind, hz, hrest, hread, Except.mapError,
    hstop']
  rfl

theorem run_token (hkeys : x.dropStale = .ok y) (hstep : y.step = .ok (.inr u)) (n : Nat) :
    x.run (n + 1) = u.run n := by
  simp [run, hkeys, hstep]

theorem dropKey_optional (h : ∀ k ∈ x.possible, k.required = false) :
    x.dropKey = .ok { x with possible := x.outerKeys } := by
  unfold dropKey
  split
  · next hkey => exact absurd (h _ (List.mem_of_find?_eq_some hkey)) (by simp)
  · rfl

/-! ## The key -/

/-- Behind the word of the key, which waits for its colon. -/
def atColon (s : List Char) : Lexer :=
  ⟨⟨s, 5, 0, 5⟩, none, .core, none, [.text "title" true], [], -1, [], false, [⟨0, 0, false, 0, 0, 0⟩]⟩

/-- Behind the colon of the key, where its value may start. -/
def atValue (s : List Char) : Lexer :=
  ⟨⟨s, 6, 0, 6⟩, none, .core, none, [.blockMapping, .key, .text "title" true, .value], [], 0, [-1],
    false, []⟩

theorem read_title (s : List Char) :
    (start ⟨"title:".toList ++ ' ' :: s, none⟩).dispatch 't' ("itle:".toList ++ ' ' :: s) =
      .ok (atColon (':' :: ' ' :: s)) := rfl

theorem read_colon (s : List Char) :
    (atColon (':' :: ' ' :: s)).dispatch ':' (' ' :: s) = .ok (atValue (' ' :: s)) := rfl

theorem ofSource_key (s : List Char) :
    Token.ofSource ⟨"title:".toList ++ ' ' :: s, none⟩ = (atValue (' ' :: s)).run (s.length + 7) := by
  have hstart : (start ⟨"title:".toList ++ ' ' :: s, none⟩).toToken =
      start ⟨"title:".toList ++ ' ' :: s, none⟩ :=
    toToken_here rfl (by simp [start, Cursor.start])
  have hcolon : (atColon (':' :: ' ' :: s)).toToken = atColon (':' :: ' ' :: s) :=
    toToken_here rfl (by simp [atColon])
  have hfirst := step_token hstart rfl rfl rfl rfl (read_title s) rfl
  have hsecond := step_token hcolon rfl rfl rfl rfl (read_colon s) rfl
  have hlength : ("title:".toList ++ ' ' :: s).length + 2 = s.length + 7 + 1 + 1 := by simp
  rw [Token.ofSource, hlength, run_token rfl hfirst, run_token rfl hsecond]

/-! ## The value -/

/-- In the value of the entry, with the tokens read so far. No key is waited for. -/
structure Within (x : Lexer) (ts : List Token) : Prop where
  stop : x.stop = none
  version : x.version = .core
  tokens : x.tokens = ts
  brackets : x.brackets = []
  indent : x.indent = 0
  outer : x.outer = [-1]
  optional : ∀ k ∈ x.possible, k.required = false

theorem within_atValue (s : List Char) : Within (atValue s) (atValue s).tokens :=
  ⟨rfl, rfl, rfl, rfl, rfl, rfl, by simp [atValue]⟩

namespace Within

theorem inside (h : Within x ts) : x.inside = false := by simp [Lexer.inside, h.brackets]

theorem moveTo (h : Within x ts) (rest : List Char) : Within (x.moveTo rest) ts :=
  ⟨h.stop, h.version, h.tokens, h.brackets, h.indent, h.outer, h.optional⟩

theorem keyAllowed (h : Within x ts) (b : Bool) : Within { x with keyAllowed := b } ts :=
  ⟨h.stop, h.version, h.tokens, h.brackets, h.indent, h.outer, h.optional⟩

theorem push (h : Within x ts) (t : Token) : Within (x.push t) (ts ++ [t]) :=
  ⟨h.stop, h.version, by simp [Lexer.push, h.tokens], h.brackets, h.indent, h.outer, h.optional⟩

theorem withKeys (h : Within x ts) {keys : List PossibleKey} (hkeys : ∀ k ∈ keys, k.required = false) :
    Within { x with possible := keys } ts :=
  ⟨h.stop, h.version, h.tokens, h.brackets, h.indent, h.outer, hkeys⟩

/-- The space before a token is passed over. -/
theorem toToken (h : Within x ts) {space : List Char} (hrest : x.cursor.rest = space ++ rest)
    (hmark : x.cursor.rest.head? ≠ some '\uFEFF')
    (hspace : (skipSpace false false (space ++ rest)).1 = rest) :
    Within x.toToken ts ∧ x.toToken.cursor = x.cursor.skip space.length := by
  have hmoved : (x.moveTo rest).cursor = x.cursor.skip space.length := by
    simp [Lexer.moveTo, Cursor.leaving, hrest]
  rw [toToken_eq hmark, h.inside, hrest, hspace]
  split
  · exact ⟨(h.moveTo _).keyAllowed true, hmoved⟩
  · exact ⟨h.moveTo _, hmoved⟩

theorem dropStale (h : Within x ts) :
    ∃ y, x.dropStale = .ok y ∧ Within y ts ∧ y.cursor = x.cursor := by
  have hnone : x.possible.any (fun k => x.isStale k && k.required) = false := by
    rw [List.any_eq_false]
    intro k hk
    simp [h.optional k hk]
  refine ⟨{ x with possible := x.possible.filter (!x.isStale ·) }, ?_, ?_, rfl⟩
  · rw [Lexer.dropStale, hnone, if_neg Bool.false_ne_true]
  · exact h.withKeys fun k hk => h.optional k (List.mem_of_mem_filter hk)

theorem dropKey (h : Within x ts) :
    ∃ y, x.dropKey = .ok y ∧ Within y ts ∧ y.cursor = x.cursor :=
  ⟨_, dropKey_optional h.optional,
    h.withKeys fun k hk => h.optional k (List.mem_of_mem_filter hk), rfl⟩

/-- Away from the column of the keys a token may become a key, but it need not. -/
theorem noteKey (h : Within x ts) (hcolumn : x.cursor.column ≠ 0) :
    ∃ y, x.noteKey = .ok y ∧ Within y ts ∧ y.cursor = x.cursor := by
  unfold Lexer.noteKey
  split
  · exact ⟨x, rfl, h, rfl⟩
  · obtain ⟨y, hy, hwithin, hcursor⟩ := h.dropKey
    have hrequired : (!x.inside && x.indent == (x.cursor.column : Int)) = false := by
      simp [h.indent, h.inside]
      omega
    simp only [hy, hrequired, bind, Except.bind]
    exact ⟨_, rfl, hwithin.withKeys (List.forall_mem_cons.mpr ⟨rfl, hwithin.optional⟩), hcursor⟩

theorem unwind (h : Within x ts) (column : Nat) : x.unwind column = x := by
  simp only [Lexer.unwind, h.inside, Bool.false_eq_true, if_false, h.outer, unwindFrom, h.indent]
  rw [if_neg (by omega)]

/-- Behind the value the mapping ends with the text. -/
theorem run_end (h : Within x ts) (hrest : x.cursor.rest = [] ∨ x.cursor.rest = ['\n']) (n : Nat) :
    x.run (n + 1) = ts ++ [.blockEnd] := by
  obtain ⟨y, hy, hwithin, hcursor⟩ := h.dropStale
  rw [← hcursor] at hrest
  obtain ⟨hat, hskip⟩ : Within y.toToken ts ∧
      y.toToken.cursor = y.cursor.skip y.cursor.rest.length := by
    refine hwithin.toToken (List.append_nil _).symm ?_ ?_
    · rcases hrest with hr | hr <;> simp [hr]
    · rcases hrest with hr | hr <;> simp [hr, skipSpace, isBreak]
  obtain ⟨z, hz, hlast, hstays⟩ := hat.dropStale
  have hempty : z.cursor.rest = [] := by
    rw [hstays, hskip, Cursor.skip_rest, List.drop_length]
  have hclosed : z.unwind (-1) = { z with indent := -1, outer := [] }.push .blockEnd := by
    simp [Lexer.unwind, hlast.inside, hlast.outer, unwindFrom, hlast.indent]
  have hstep : y.step = .ok (.inl (ts ++ [.blockEnd])) := by
    unfold step
    have hkeys := @dropKey_optional ({ z with indent := -1, outer := [] }.push .blockEnd) hlast.optional
    simp only [needs, hat.stop, hz, bind, Except.bind, hlast.unwind, hempty, hclosed, hkeys]
    simp [Lexer.push, hlast.tokens, pure, Except.pure]
  simp [run, hy, hstep]

/-- One token makes the value. -/
theorem run_value (h : Within x ts) {space : List Char} (hrest : x.cursor.rest = space ++ c :: rest)
    (hmark : x.cursor.rest.head? ≠ some '\uFEFF')
    (hspace : (skipSpace false false (space ++ c :: rest)).1 = c :: rest) {t : Token}
    (hread : ∀ y, Within y ts → y.cursor = x.cursor.skip space.length →
      ∃ u, y.dispatch c rest = .ok u ∧ Within u (ts ++ [t]) ∧
        (u.cursor.rest = [] ∨ u.cursor.rest = ['\n'])) (n : Nat) :
    x.run (n + 2) = ts ++ [t, .blockEnd] := by
  obtain ⟨y, hy, hwithin, hcursor⟩ := h.dropStale
  rw [← hcursor] at hrest hmark hread
  obtain ⟨hat, hskip⟩ := hwithin.toToken hrest hmark hspace
  obtain ⟨z, hz, hlast, hstays⟩ := hat.dropStale
  have hhere : z.cursor.rest = c :: rest := by
    rw [hstays, hskip, Cursor.skip_rest, hrest, List.drop_left]
  obtain ⟨u, hu, hbehind, hend⟩ := hread z hlast (hstays.trans hskip)
  have hstep := step_token rfl hat.stop hz (hlast.unwind _) hhere hu hbehind.stop
  rw [run_token hy hstep, hbehind.run_end hend, List.append_assoc]
  rfl

theorem quote (h : Within x ts) (hcolumn : x.cursor.column ≠ 0) {single : Bool}
    {written text : List Char} (hrest : x.cursor.rest = c :: (written ++ rest))
    (hread : (if single then singleQuoted ((written ++ rest).length + 1) (written ++ rest)
      else doubleQuoted ((written ++ rest).length + 1) (written ++ rest)) = .ok (text, rest)) :
    ∃ u, x.quoteMark single = .ok u ∧ Within u (ts ++ [.text (String.ofList text) false]) ∧
      u.cursor.rest = rest := by
  obtain ⟨y, hy, hwithin, hcursor⟩ := h.noteKey hcolumn
  have hmoved : (({ y with keyAllowed := false } : Lexer).moveTo rest).cursor.rest = rest :=
    moveTo_rest (s := c :: written) (by simpa [hcursor] using hrest)
  have hdrop : y.cursor.rest.drop 1 = written ++ rest := by
    rw [hcursor, hrest]
    rfl
  have hwritten := ((hwithin.keyAllowed false).moveTo rest).push (.text (String.ofList text) false)
  refine ⟨_, ?_, hwritten, hmoved⟩
  unfold quoteMark
  cases single
  all_goals
    simp only [Bool.false_eq_true, if_false, if_true] at hread
    simp only [hy, hdrop, hread, bind, Except.bind, Bool.false_eq_true, if_false, if_true]
    rfl

theorem plain (h : Within x ts) (hcolumn : x.cursor.column ≠ 0) {part : PlainPart}
    (hread : plainText false .core 1 x.cursor = part) :
    ∃ u, x.plainMark = .ok u ∧ Within u (ts ++ [.text (String.ofList part.text) true]) ∧
      u.cursor = part.cursor := by
  obtain ⟨y, hy, hwithin, hcursor⟩ := h.noteKey hcolumn
  have hpart : plainText y.inside y.version (y.indent + 1).toNat y.cursor = part := by
    rw [hwithin.inside, hwithin.version, hwithin.indent, hcursor]
    exact hread
  unfold plainMark
  simp only [hy, hpart, bind, Except.bind]
  refine ⟨_, rfl, ?_, rfl⟩
  exact ⟨hwithin.stop, hwithin.version, by simp [Lexer.push, hwithin.tokens], hwithin.brackets,
    hwithin.indent, hwithin.outer, hwithin.optional⟩

end Within

theorem dispatch_quote (hcolumn : x.cursor.column ≠ 0) :
    x.dispatch '\'' rest = x.quoteMark true ∧ x.dispatch '"' rest = x.quoteMark false := by
  simp [dispatch, hcolumn]

/-- A character that a plain text may start with, and what may follow it. -/
structure Starts (c : Char) (rest : List Char) : Prop where
  ordinary : isGap c = false
  free : c ∉ "#,[]&*!|>'%@\"\x7b\x7d\x60".toList
  joined : c = '-' ∨ c = '?' ∨ c = ':' → gapAhead rest = false

theorem dispatch_plain (h : Within x ts) (hcolumn : x.cursor.column ≠ 0) (hc : Starts c rest) :
    x.dispatch c rest = x.plainMark := by
  obtain ⟨hgap, hfree, hjoined⟩ := hc
  simp only [isGap, Bool.or_eq_false_iff, decide_eq_false_iff_not] at hgap
  simp at hfree
  by_cases hmark : c = '-' ∨ c = '?' ∨ c = ':'
  · have hahead := hjoined hmark
    rcases hmark with rfl | rfl | rfl <;>
      simp [dispatch, hcolumn, hahead, h.inside, h.version, isValueMark, startsPlain]
  · simp only [not_or] at hmark
    simp [dispatch, hcolumn, h.inside, startsPlain, hfree, hgap, hmark]

/-! ## The entry -/

/-- What stands between the colon and the value: a space, and the end of a line before a long
word. -/
def Lead (lead : List Char) : Prop := lead = [' '] ∨ lead = ' ' :: titleWidth.newLine

/-- The tokens of an entry whose value is made of one token. -/
theorem ofSource_value {lead : List Char} (hlead : Lead lead) (hc : isGap c = false)
    (hcomment : c ≠ '#') {text : List Char} {plain : Bool}
    (hread : ∀ y : Lexer, Within y (atValue []).tokens → y.cursor.rest = c :: rest →
      y.cursor.column ≠ 0 → ∃ u, y.dispatch c rest = .ok u ∧
        Within u ((atValue []).tokens ++ [.text (String.ofList text) plain]) ∧
        (u.cursor.rest = [] ∨ u.cursor.rest = ['\n'])) :
    Token.ofSource ⟨"title:".toList ++ (lead ++ c :: rest), none⟩ =
      entryTokens (String.ofList text) plain := by
  obtain ⟨hspace, -, hbreak⟩ := not_space_of_gap hc
  have htab : c ≠ '\t' := by
    rintro rfl
    cases hc
  obtain ⟨more, hmore⟩ : ∃ more, lead ++ c :: rest = ' ' :: more := by
    rcases hlead with rfl | rfl <;> exact ⟨_, rfl⟩
  have hskip : (skipSpace false false (lead ++ c :: rest)).1 = c :: rest := by
    rcases hlead with rfl | rfl <;>
      simp [skipSpace, Width.newLine, titleWidth, hspace, htab, hbreak, hcomment, List.replicate,
        show isBreak ' ' = false from rfl, show isBreak '\n' = true from rfl]
  have hcolumn : ((atValue (lead ++ c :: rest)).cursor.skip lead.length).column ≠ 0 := by
    rcases hlead with rfl | rfl
    · exact Nat.succ_ne_zero 6
    · exact Nat.succ_ne_zero 1
  rw [hmore, ofSource_key, ← hmore]
  refine (within_atValue _).run_value rfl ?_ hskip ?_ _
  · simp [atValue, hmore]
  · intro y hy hcursor
    refine hread y hy ?_ (hcursor ▸ hcolumn)
    rw [hcursor, Cursor.skip_rest]
    exact List.drop_left

/-- A value in quotes. -/
theorem ofSource_quoted (single : Bool) {mark : Char} (hmark : mark = if single then '\'' else '"')
    {written text : List Char}
    (hread : (if single then singleQuoted ((written ++ ['\n']).length + 1) (written ++ ['\n'])
      else doubleQuoted ((written ++ ['\n']).length + 1) (written ++ ['\n'])) = .ok (text, ['\n'])) :
    Token.ofSource ⟨"title:".toList ++ ([' '] ++ mark :: (written ++ ['\n'])), none⟩ =
      entryTokens (String.ofList text) false := by
  refine ofSource_value (.inl rfl) ?_ ?_ ?_
  · cases single <;> simp [hmark, isGap, isBreak]
  · cases single <;> simp [hmark]
  · intro y hy hrest hcolumn
    obtain ⟨u, hu, hwithin, hend⟩ := hy.quote hcolumn hrest hread
    refine ⟨u, ?_, hwithin, .inr hend⟩
    cases single
    · obtain rfl := hmark
      exact (dispatch_quote hcolumn).2.trans hu
    · obtain rfl := hmark
      exact (dispatch_quote hcolumn).1.trans hu

/-- A value without quotes, which may start on a line of its own. -/
theorem ofSource_plain {lead : List Char} (hlead : Lead lead) (hc : Starts c rest) {text : List Char}
    (hread : ∀ y : Cursor, y.rest = c :: rest → ∃ z, plainText false .core 1 y = ⟨text, z, true⟩ ∧
      z.rest = []) :
    Token.ofSource ⟨"title:".toList ++ (lead ++ c :: rest), none⟩ =
      entryTokens (String.ofList text) true := by
  refine ofSource_value hlead hc.ordinary ?_ ?_
  · rintro rfl
    exact hc.free (by decide)
  · intro y hy hrest hcolumn
    obtain ⟨z, hz, hend⟩ := hread y.cursor hrest
    obtain ⟨u, hu, hwithin, hcursor⟩ := hy.plain hcolumn hz
    exact ⟨u, (dispatch_plain hy hcolumn hc).trans hu, hwithin, .inl (by rw [hcursor]; exact hend)⟩

end Lexer

/-! ## Its value -/

/-- The nodes of an entry. -/
def entryGraph (t : String) : Graph :=
  ⟨#[⟨.map, .map [(1, 2)], []⟩, ⟨.text, .text "title", []⟩, ⟨.text, .text t, []⟩]⟩

theorem ofNode_entry {t : String} {plain : Bool} (hkind : plain = true → kindOf .core t = .text) :
    Graph.ofNode .core (.map .none [(.text .none "title" true, .text .none t plain)]) =
      (0, entryGraph t) := by
  have hkey : kindOf .core "title" = .text := by decide +kernel
  have hvalue : (if plain = true then kindOf .core t else .text) = .text := by
    cases plain
    · rfl
    · exact hkind rfl
  simp [Graph.ofNode, Graph.number, Graph.numberEntries, Graph.Numbering.add, Graph.Numbering.fill,
    Graph.tagged, Graph.set, Vertex.of, Graph.textKind, NodeProps.none, hkey, hvalue, entryGraph]

theorem whole_entry (t : String) : ∃ (a : Assembly) (n : Nat),
    (Assembly.whole 0).run (.ofGraph .core (entryGraph t)) = .ok (.cell 0, a) ∧
      a.store = ⟨#[.map [(.single (.text "title") 2, .single (.text t) n)]]⟩ :=
  ⟨_, _, rfl, rfl⟩

theorem value_entry (v w : Value) (m n : Nat) :
    Store.value ⟨#[.map [(.single v m, .single w n)]]⟩ (.cell 0) = .map [(v, w)] := by
  simp [Store.value, Store.valueFrom, Store.entriesFrom, Store.cell]

theorem ofText_eq {s : List Char} (h : ∀ c ∈ s, isAllowed c = true) : Source.ofText s = ⟨s, none⟩ := by
  have hall : s.all isAllowed = true := List.all_eq_true.mpr h
  simp [Source.ofText, Source.ofPortions, hall]

/-- A text is read as a mapping of one entry. -/
theorem read_entry {s : List Char} (hallowed : ∀ c ∈ s, isAllowed c = true) {t : String} {plain : Bool}
    (htokens : Token.ofSource ⟨s, none⟩ = entryTokens t plain)
    (hkind : plain = true → kindOf .core t = .text) :
    read s = .ok (.map [(.text "title", .text t)]) := by
  have hnode : Node.ofTokens (entryTokens t plain) =
      .ok (some (.map .none [(.text .none "title" true, .text .none t plain)], .core)) := rfl
  obtain ⟨a, n, hwhole, hstore⟩ := whole_entry t
  simp only [read, ofText_eq hallowed, Document.ofSource, htokens, hnode, bind, Except.bind,
    Document.ofNode, ofNode_entry hkind, hwhole]
  simp only [pure, Except.pure, Except.map, Document.value, hstore, value_entry]

end Sourcebook.Yaml
