-- The book of texts that are read one after the other is the account of what each of them tells
-- on its own.
import Mathlib
import Sourcebook.Proofs.Book.Account
import Sourcebook.Proofs.Book.Shelves

namespace Sourcebook

/-! ## What a text speaks of -/

namespace FileState

/-- Events that speak only of chapters that are known, or that were declared before among them. -/
def Follows (known : List String) : List Event → Prop
  | [] => True
  | e :: rest => (∀ c, e.about? = some c → c ∈ known) ∧
      Follows (known ++ (e.declaration?.map Declaration.id).toList) rest

variable {s : FileState} {n : Nat} {known : List String}

/-- What fits a known chapter declares nothing, and speaks of nothing else. -/
theorem follows_fits {es rest : List Event} (h : ∀ e ∈ es, Fits s e)
    (hk : ∀ c, s.chapter = some c → c ∈ known) (hrest : Follows known rest) :
    Follows known (es ++ rest) := by
  induction es with
  | nil => exact hrest
  | cons e es ih =>
    have hin := ih fun f hf => h f (List.mem_cons_of_mem _ hf)
    cases h e List.mem_cons_self with
    | notice m => exact ⟨fun c hc => (nomatch hc), by simpa [Event.declaration?] using hin⟩
    | listed hl => exact ⟨fun c hc => (nomatch hc), by simpa [Event.declaration?] using hin⟩
    | about hchapter habout =>
      have hnone : e.declaration? = none := by
        cases e <;> first | rfl | cases habout
      refine ⟨fun c hc => ?_, by simpa [hnone] using hin⟩
      rw [habout] at hc
      cases hc
      exact hk _ hchapter

/-- A line declares a chapter, or keeps to the one that is known. -/
theorem readLine_cases (s : FileState) (n : Nat) (line : List Char) :
    (∃ id title, (s.readLine n line).events = [.declare s.source n id title] ∧
      (s.readLine n line).state.chapter = some id ∧ (s.readLine n line).error = none) ∨
    (∀ e ∈ (s.readLine n line).events, Fits s e) ∧
      (s.readLine n line).state.chapter = s.chapter := by
  by_cases hd : ∃ id title, Directive.ofLine line = .declare id title
  · obtain ⟨id, title, hd⟩ := hd
    refine Or.inl ⟨String.ofList id, String.ofList title, ?_⟩
    unfold readLine
    rw [hd]
    exact ⟨rfl, rfl, rfl⟩
  · refine Or.inr ⟨fun e he => ?_, ?_⟩
    · rcases readLine_fits he with ⟨id, title, hline, -⟩ | h
      · exact absurd ⟨id, title, hline⟩ hd
      · exact h
    · rw [(s.readLine_state n line).2.1]
      unfold chapterAfter
      split
      · next id title hline => exact absurd ⟨id, title, hline⟩ hd
      · rfl

theorem readLines_follows {lines : List (List Char)} (hk : ∀ c, s.chapter = some c → c ∈ known) :
    Follows known (s.readLines n lines).1 := by
  induction lines generalizing s n known with
  | nil =>
    have hclosing : Follows known (s.closing (n - 1) ++ []) :=
      follows_fits (fun e he => closing_fits he) hk trivial
    rwa [List.append_nil] at hclosing
  | cons line rest ih =>
    simp only [readLines]
    rcases s.readLine_cases n line with ⟨id, title, hevents, hchapter, herror⟩ | ⟨hfits, hchapter⟩
    · rw [herror, hevents]
      refine ⟨?_, ih fun c hc => ?_⟩
      · intro c hc
        cases hc
      · rw [hchapter] at hc
        cases hc
        simp [Event.declaration?]
    · split
      · have hone : Follows known ((s.readLine n line).events ++ []) :=
          follows_fits hfits hk trivial
        rwa [List.append_nil] at hone
      · refine follows_fits hfits hk (ih fun c hc => hk c ?_)
        rwa [hchapter] at hc

/-- Lists that come up while a file is read are those that the search makes. -/
theorem readLines_listed {lines : List (List Char)} {files : List Location}
    (h : .listed files ∈ (s.readLines n lines).1) : s.shelf.list = .ok files := by
  have hfits : ∀ {t : FileState}, Fits t (.listed files) → t.shelf.list = .ok files := by
    intro t ht
    cases ht with
    | listed hl => exact hl
    | about _ habout => cases habout
  have hline : ∀ {t : FileState} {m : Nat} {line : List Char},
      .listed files ∈ (t.readLine m line).events → t.shelf.list = .ok files := by
    intro t m line ht
    rcases readLine_fits ht with ⟨id, title, -, he⟩ | ht
    · cases he
    · exact hfits ht
  induction lines generalizing s n with
  | nil => exact hfits (closing_fits h)
  | cons line rest ih =>
    simp only [readLines] at h
    split at h
    · exact hline h
    · rcases List.mem_append.mp h with h | h
      · exact hline h
      · exact (s.readLine_state n line).2.2.list.trans (ih h)

end FileState

/-! ## One text -/

namespace Desk

/-- Reads texts at paths in turn, up to the first that breaks off. -/
def readTexts (disk : Disk) (s : Settings) (d : Desk) :
    List (Path × List Char) → Desk × Option ScanError
  | [] => (d, none)
  | (p, text) :: rest =>
    match d.readTextAt disk s p text with
    | (d, none) => d.readTexts disk s rest
    | (d, some e) => (d, some e)

/-- The chapters of a desk are the account of the events so far, and its list is the one that a
search would make. -/
structure Told (disk : Disk) (s : Settings) (es : List Event) (d : Desk) : Prop where
  chapters : d.book.chapters = Account.chapters s.root es
  grounded : Account.Grounded es
  shelf : (Shelf.mk disk s none).Alike ⟨disk, s, d.listed⟩

variable {disk : Disk} {s : Settings} {es : List Event} {d d' : Desk}

/-- Without strictness every event is taken. -/
theorem apply_ok (hs : s.strict = false) (d : Desk) (e : Event) : ∃ d', d.apply s e = .ok d' := by
  have hbook : ∃ b, d.book.apply s e = .ok b := by
    cases e with
    | declare source n id title =>
      unfold Book.apply Book.declare
      rw [hs]
      dsimp only
      split
      · exact ⟨_, rfl⟩
      · split
        · exact ⟨_, rfl⟩
        · exact ⟨_, rfl⟩
    | _ => exact ⟨_, rfl⟩
  obtain ⟨b, hb⟩ := hbook
  unfold apply
  rw [hb]
  exact ⟨_, rfl⟩

theorem apply_book {e : Event} (h : d.apply s e = .ok d') : d.book.apply s e = .ok d'.book := by
  unfold apply at h
  cases hb : d.book.apply s e with
  | error text =>
    rw [hb] at h
    cases h
  | ok b =>
    rw [hb] at h
    cases h
    rfl

theorem apply_listed {e : Event} (h : d.apply s e = .ok d') :
    d'.listed = d.listed ∨ ∃ files, e = .listed files ∧ d'.listed = some files := by
  unfold apply at h
  cases hb : d.book.apply s e with
  | error text =>
    rw [hb] at h
    cases h
  | ok b =>
    rw [hb] at h
    cases h
    cases e with
    | listed files => exact Or.inr ⟨files, rfl, rfl⟩
    | _ => exact Or.inl rfl

theorem Told.apply {e : Event} (hd : Told disk s es d) (ha : ∀ c, e.about? = some c → c ∈ Account.ids es)
    (hl : ∀ files, e = .listed files → Discovery.files disk s = .ok files)
    (h : d.apply s e = .ok d') : Told disk s (es ++ Event.telling [e]) d' := by
  have hbook := apply_book h
  refine ⟨?_, ?_, ?_⟩
  · cases hr : e.isRemark with
    | true =>
      rw [Account.apply_remark hr hbook, hd.chapters]
      simp [Event.telling, hr]
    | false =>
      rw [Account.apply_account hd.chapters hd.grounded hr hbook]
      simp [Event.telling, hr]
  · have hids : ∀ c ∈ Account.ids es, c ∈ Account.ids (es ++ Event.telling [e]) := by
      intro c hc
      unfold Account.ids Account.declarations at hc ⊢
      rw [List.filterMap_append, List.map_append]
      exact List.mem_append_left _ hc
    intro f hf c hc
    rcases List.mem_append.mp hf with hf | hf
    · exact hids c (hd.grounded f hf c hc)
    · obtain rfl := List.mem_singleton.mp (List.mem_of_mem_filter hf)
      exact hids c (ha c hc)
  · rcases apply_listed h with he | ⟨files, he, hfiles⟩
    · rw [he]
      exact hd.shelf
    · rw [hfiles]
      exact ⟨rfl, rfl, hl files he⟩

theorem ids_of_declaration {e : Event} {c : String}
    (h : c ∈ (e.declaration?.map Declaration.id).toList) :
    c ∈ Account.ids (es ++ Event.telling [e]) := by
  cases e with
  | declare source n id title =>
    obtain rfl : c = id := by simpa [Event.declaration?] using h
    simp [Account.ids, Account.declarations, Event.telling, Event.isRemark, Event.declaration?]
  | _ => simp [Event.declaration?] at h

/-- Events that follow from what is known are all taken, and tell what they tell. -/
theorem Told.applyAll (hs : s.strict = false) {evs : List Event} {known : List String}
    (hd : Told disk s es d) (hk : ∀ c ∈ known, c ∈ Account.ids es) (hf : FileState.Follows known evs)
    (hl : ∀ files, .listed files ∈ evs → Discovery.files disk s = .ok files) :
    ∃ d', d.applyAll s evs = (d', none) ∧ Told disk s (es ++ Event.telling evs) d' := by
  induction evs generalizing es d known with
  | nil => exact ⟨d, rfl, by simpa [Event.telling] using hd⟩
  | cons e rest ih =>
    obtain ⟨habout, hrest⟩ := hf
    obtain ⟨d1, h1⟩ := apply_ok hs d e
    have hone : Told disk s (es ++ Event.telling [e]) d1 :=
      hd.apply (fun c hc => hk c (habout c hc)) (fun files he => hl files (by simp [he])) h1
    have hknown : ∀ c ∈ known ++ (e.declaration?.map Declaration.id).toList,
        c ∈ Account.ids (es ++ Event.telling [e]) := by
      intro c hc
      rcases List.mem_append.mp hc with hc | hc
      · unfold Account.ids Account.declarations
        rw [List.filterMap_append, List.map_append]
        exact List.mem_append_left _ (hk c hc)
      · exact ids_of_declaration hc
    obtain ⟨d2, h2, htold⟩ := ih hone hknown hrest fun files hfiles =>
      hl files (List.mem_cons_of_mem _ hfiles)
    refine ⟨d2, ?_, ?_⟩
    · simp only [Desk.applyAll, h1, h2]
    · rwa [List.append_assoc, ← FileState.telling_append] at htold

/-- Reading a text adds what the text tells on its own. -/
theorem Told.readText (hs : s.strict = false) (hd : Told disk s es d) {source : Location}
    {text : List Char} (h : d.readText disk s source text = (d', none)) :
    Told disk s (es ++ Event.tellingOf disk s source text) d' := by
  have hfollows : FileState.Follows [] (Event.ofText ⟨disk, s, d.listed⟩ source text).1 :=
    FileState.readLines_follows fun c hc => nomatch hc
  have hlisted : ∀ files, .listed files ∈ (Event.ofText ⟨disk, s, d.listed⟩ source text).1 →
      Discovery.files disk s = .ok files := by
    intro files hfiles
    exact hd.shelf.list.trans (FileState.readLines_listed hfiles)
  obtain ⟨d1, h1, htold⟩ := hd.applyAll hs (by simp) hfollows hlisted
  rw [(Event.ofText_alike hd.shelf source text).1] at htold
  unfold Desk.readText at h
  dsimp only at h
  rw [h1] at h
  dsimp only at h
  split at h
  · cases h
  · cases h
    exact ⟨htold.chapters, htold.grounded, htold.shelf⟩

theorem Told.readTexts (hs : s.strict = false) (hd : Told disk s es d)
    {texts : List (Path × List Char)} (h : d.readTexts disk s texts = (d', none)) :
    Told disk s (es ++ texts.flatMap fun t => Event.tellingOf disk s (t.1.normal []) t.2) d' := by
  induction texts generalizing es d with
  | nil =>
    cases h
    simpa using hd
  | cons t rest ih =>
    obtain ⟨p, text⟩ := t
    simp only [Desk.readTexts] at h
    split at h
    · next d1 h1 =>
      have hone : Told disk s (es ++ Event.tellingOf disk s (p.normal []) text) d1 := by
        unfold readTextAt at h1
        split at h1
        · cases h1
        · exact hd.readText hs h1
      have hall := ih hone h
      rwa [List.append_assoc] at hall
    · cases h

theorem told_start (disk : Disk) (s : Settings) : Told disk s [] Desk.start :=
  ⟨rfl, fun _ he => (nomatch he), .refl _⟩

end Desk

/-- The priority that a line sets is the number that it gives, or the one that chapters start
with. -/
theorem FileState.telling_rank {s : FileState} {n : Nat} {line raw : List Char} {c : String}
    (hline : Directive.ofLine line = .rank raw) (hc : s.chapter = some c) :
    Event.telling (s.readLine n line).events =
      [.rank c ((Text.readInteger? (Text.trim raw)).getD defaultPriority)] := by
  unfold readLine rank
  rw [hline, hc]
  dsimp only
  cases Text.readInteger? (Text.trim raw) with
  | none => rfl
  | some k => rfl

/-- A book of texts that were read without breaking off is the account of what each of them tells
on its own. The chapters come in the order of their first declarations and keep what those say;
the last priority counts, and one that cannot be read counts as the usual one; each section holds
the runs of what was added to it. What a text tells does not depend on the texts before it. -/
theorem books_are_what_their_texts_tell {disk : Disk} {s : Settings} (hs : s.strict = false)
    {texts : List (Path × List Char)} {d : Desk}
    (h : Desk.start.readTexts disk s texts = (d, none)) :
    let told := texts.flatMap fun t => Event.tellingOf disk s (t.1.normal []) t.2
    d.book.chapters = Account.chapters s.root told ∧
    (d.book.chapters.map (·.id)).Nodup ∧
    (∀ c ∈ d.book.chapters, (c.sections.map (·.title)).Nodup) ∧
    (∀ source text,
      Event.telling (Event.ofText ⟨disk, s, d.listed⟩ source text).1 =
        Event.tellingOf disk s source text ∧
      (Event.ofText ⟨disk, s, d.listed⟩ source text).2 =
        (Event.ofText ⟨disk, s, none⟩ source text).2) ∧
    ∀ (state : FileState) (n : Nat) (line raw : List Char) (c : String),
      Directive.ofLine line = .rank raw → state.chapter = some c →
      Event.telling (state.readLine n line).events =
        [.rank c ((Text.readInteger? (Text.trim raw)).getD defaultPriority)] := by
  intro told
  have htold := (Desk.told_start disk s).readTexts hs h
  rw [List.nil_append] at htold
  refine ⟨htold.chapters, ?_, ?_, Event.ofText_alike htold.shelf, ?_⟩
  · rw [htold.chapters]
    unfold Account.chapters
    rw [List.map_map]
    exact nodup_firsts
  · intro c hc
    rw [htold.chapters] at hc
    obtain ⟨first, -, rfl⟩ := List.mem_map.mp hc
    unfold Account.chapter Account.sections
    dsimp only
    rw [List.map_map]
    simpa [Function.comp_def] using Account.nodup_headings told first.id
  · exact fun _ _ _ _ _ hline hc => FileState.telling_rank hline hc

/-- A chapter that a second file goes on with. -/
def sampleTexts : List (Path × List Char) :=
  [(⟨.single, ["p", "test", "a.ts"]⟩, "/// @chapter: a \"A\"\n/// one\n".toList),
    (⟨.single, ["p", "test", "b.ts"]⟩, "/// @chapter: a \"A\"\n/// @priority: 5\n/// two\n".toList)]

theorem two_texts_make_one_chapter :
    let s := Settings.ofRoot ["p"]
    let read := Desk.start.readTexts ⟨[]⟩ s sampleTexts
    s.strict = false ∧ read.2 = none ∧
    read.1.book.chapters = [⟨"a", "A", "/p/test/a.ts", "test", 5,
      [⟨"Overview", [.prose "one\ntwo"]⟩], none⟩] := by
  intro s read
  have hs : s.strict = false := rfl
  have hread : read.2 = none := by decide +kernel
  refine ⟨hs, hread, ?_⟩
  rw [(books_are_what_their_texts_tell hs (Prod.ext rfl hread)).1]
  decide +kernel

end Sourcebook
