-- How the lines of a file end. A text is read alike with any line ends, from a file or as it stands,
-- also where the file includes itself.
import Mathlib
import Sourcebook.Proofs.Book.Rereading
import Sourcebook.Proofs.Disk.Texts
import Sourcebook.Proofs.Text.LineEnds

namespace Sourcebook

open Text (LineEnd)
open Disk (SameTexts)

/-! ## Disks that hold the same texts -/

variable {disk disk' : Disk}

namespace Discovery

theorem isWanted_of_sameTexts (h : SameTexts disk disk') (s : Settings) :
    isWanted disk' s = isWanted disk s := by
  funext spelled
  unfold isWanted
  rw [h.isFile]

theorem files_of_sameTexts (h : SameTexts disk disk') (s : Settings) :
    files disk' s = files disk s := by
  unfold files ofPattern
  simp only [Glob.run_of_sameTexts h, isWanted_of_sameTexts h]

end Discovery

theorem Shelf.list_of_sameTexts {a : Shelf} (h : SameTexts a.disk disk') :
    (a.onDisk disk').list = a.list := by
  unfold list onDisk
  dsimp only
  rw [Discovery.files_of_sameTexts h]

theorem Shelf.find_of_sameTexts {a : Shelf} (h : SameTexts a.disk disk') (target : String)
    (current : Path) :
    (a.onDisk disk').find target current = (a.find target current).map (Found.onDisk · disk') :=
  find_onDisk (list_of_sameTexts h) fun p _ => h.isFile p

namespace FileState

variable {s : FileState}

theorem embedIn_of_sameTexts (h : SameTexts s.shelf.disk disk') (n : Nat) (c target : String)
    (raw : Option String) :
    (s.onDisk disk').embedIn n c target raw = (s.embedIn n c target raw).onDisk disk' :=
  embedIn_reshelf (g := (·.onDisk disk')) (fun _ => rfl) (Shelf.find_of_sameTexts h _ _)
    (fun _ p hf _ => (Shelf.find_alike hf).disk ▸ h.read p) n c raw

theorem readLine_of_sameTexts (h : SameTexts s.shelf.disk disk') (n : Nat) (line : List Char) :
    (s.onDisk disk').readLine n line = (s.readLine n line).onDisk disk' :=
  readLine_reshelf (g := (·.onDisk disk')) fun _ _ _ =>
    embed_reshelf fun c _ => embedIn_of_sameTexts (s := s.closed) h n c _ _

theorem readLines_of_sameTexts {lines : List (List Char)} (h : SameTexts s.shelf.disk disk')
    (n : Nat) : (s.onDisk disk').readLines n lines = s.readLines n lines :=
  readLines_reshelf (g := (·.onDisk disk')) (P := fun s _ _ => SameTexts s.shelf.disk disk')
    (fun h => readLine_of_sameTexts h _ _)
    (fun {s n line _} h _ => (s.readLine_state n line).2.2.disk ▸ h) h

end FileState

/-- A text has the same events in front of the same texts. -/
theorem Event.ofText_of_sameTexts (h : SameTexts disk disk') (s : Settings)
    (listed : Option (List Location)) (source : Location) (text : List Char) :
    Event.ofText ⟨disk', s, listed⟩ source text = Event.ofText ⟨disk, s, listed⟩ source text := by
  have hsame : SameTexts (FileState.ofFile ⟨disk, s, listed⟩ source).shelf.disk disk' := h
  have honto : (FileState.ofFile ⟨disk, s, listed⟩ source).onDisk disk' =
      .ofFile ⟨disk', s, listed⟩ source := FileState.onShelf_ofFile _ _ source
  unfold Event.ofText
  rw [← honto, FileState.readLines_of_sameTexts hsame]

/-! ## Line ends -/

/-- A text has the same lines when carriage returns stand before its line feeds. -/
theorem sourceLines_write_pair {t : List Char} (h : '\r' ∉ t) :
    sourceLines (LineEnd.pair.write t) = sourceLines t := by
  have hreturn : ∀ l ∈ Text.splitLines t, '\r' ∉ l := fun l hl hr =>
    h ((Text.infix_of_mem_splitOn hl).subset hr)
  have hlines := Text.splitLines_write_pair (Text.splitOn_ne_nil '\n' t)
    (fun l hl => Text.not_mem_of_mem_splitOn hl) hreturn
  rw [show Text.joinLines (Text.splitOn '\n' t) = t from Text.joinWith_splitOn '\n' t] at hlines
  rw [sourceLines, sourceLines, hlines, Text.map_dropReturn hreturn]
  rfl

namespace Desk

variable {d : Desk} {s : Settings} {p : Path} {t : List Char}

/-- What the reading of a text leaves, as the reading of a file tells it. -/
def asSource (x : Desk × Option ScanError) : Desk × Option FileError :=
  (x.1, x.2.map FileError.ofScan)

theorem readTextAt_of_lines {t' : List Char} (h : sourceLines t' = sourceLines t) (disk : Disk)
    (s : Settings) (d : Desk) (p : Path) : d.readTextAt disk s p t' = d.readTextAt disk s p t := by
  unfold readTextAt readText Event.ofText
  rw [h]

theorem readTextAt_of_sameTexts (h : SameTexts disk disk') (s : Settings) (d : Desk) (p : Path)
    (t : List Char) : d.readTextAt disk' s p t = d.readTextAt disk s p t := by
  unfold readTextAt readText
  rw [Event.ofText_of_sameTexts h]

/-- A file that holds a text is read as the text is. -/
theorem readSource_of_text {bytes : List UInt8} (hread : disk.read p = .ok bytes)
    (htext : Text.decodeFile bytes = .ok t) :
    d.readSource disk s p = asSource (d.readTextAt disk s p t) := by
  unfold readSource
  rw [hread]
  dsimp only
  rw [htext]
  split
  · next hnull =>
    unfold readTextAt
    rw [if_pos hnull]
    rfl
  · rfl

end Desk

/-- Line ends do not matter. A text is read alike with pairs for its line feeds, and a file that holds
it with any line ends is read as the text is. Where the file is written anew with other line ends, its
readings stay the same, although it may include itself. -/
theorem line_ends_do_not_matter {t : List Char} (ht : '\r' ∉ t) (s : Settings) (d : Desk) (p : Path) :
    (∀ disk, d.readTextAt disk s p (LineEnd.pair.write t) = d.readTextAt disk s p t) ∧
      (∀ (disk : Disk) (e : LineEnd), disk.read p = .ok (e.bytes t) →
        d.readSource disk s p = Desk.asSource (d.readTextAt disk s p t)) ∧
      ∀ (base disk disk' : Disk) (e e' : LineEnd), base.write p (e.bytes t) = .ok disk →
        base.write p (e'.bytes t) = .ok disk' →
          d.readSource disk s p = Desk.asSource (d.readTextAt disk' s p t) := by
  refine ⟨fun disk => Desk.readTextAt_of_lines (sourceLines_write_pair ht) disk s d p,
    fun disk e hread => Desk.readSource_of_text hread (Text.decodeFile_bytes ht e),
    fun base disk disk' e e' hw hw' => ?_⟩
  -- An include may read the file itself, so the disks are compared before the text is read.
  have htexts : Text.decodeFile (e'.bytes t) = Text.decodeFile (e.bytes t) :=
    (Text.decodeFile_bytes ht e').trans (Text.decodeFile_bytes ht e).symm
  rw [Desk.readTextAt_of_sameTexts (Disk.sameTexts_write htexts hw hw')]
  exact Desk.readSource_of_text (Disk.read_of_write hw) (Text.decodeFile_bytes ht e)

/-- A file that shows itself in its chapter. -/
def selfShowing : List Char := "/// @chapter: a \"A\"\n/// @include: \"./a.ts\"\n/// end".toList

/-- A directory with that file. -/
def selfShown (e : LineEnd) : Disk :=
  ⟨[(["p", "a.ts"], .file (e.bytes selfShowing)), (["p"], .directory)]⟩

theorem a_file_shows_itself_with_any_line_ends :
    let p := Path.ofLocation ["p", "a.ts"]
    let s := Settings.ofRoot ["p"]
    let base : Disk := ⟨[(["p"], .directory)]⟩
    '\r' ∉ selfShowing ∧
    Desk.start.readTextAt base s p (LineEnd.pair.write selfShowing) =
      Desk.start.readTextAt base s p selfShowing ∧
    (selfShown .lone).read p = .ok (LineEnd.lone.bytes selfShowing) ∧
    Desk.start.readSource (selfShown .lone) s p =
      Desk.asSource (Desk.start.readTextAt (selfShown .lone) s p selfShowing) ∧
    base.write p (LineEnd.lone.bytes selfShowing) = .ok (selfShown .lone) ∧
    base.write p (LineEnd.pair.bytes selfShowing) = .ok (selfShown .pair) ∧
    (Desk.start.readSource (selfShown .lone) s p).2 = none ∧
    (Desk.start.readSource (selfShown .lone) s p).1.book.chapters =
      [⟨"a", "A", "/p/a.ts", "", defaultPriority, [⟨"Overview",
        [.code ⟨"include-a.ts", String.ofList selfShowing, "typescript", "/p/a.ts", some "a.ts"⟩,
          .prose "end"]⟩], none⟩] := by
  intro p s base
  have ht : '\r' ∉ selfShowing := by decide
  -- This holds of all bytes, and those of the text need not be computed for it.
  have hwrite : ∀ bytes, base.write p bytes =
      .ok ⟨[(["p", "a.ts"], .file bytes), (["p"], .directory)]⟩ := fun _ => rfl
  have hlone : base.write p (LineEnd.lone.bytes selfShowing) = .ok (selfShown .lone) := hwrite _
  have hpair : base.write p (LineEnd.pair.bytes selfShowing) = .ok (selfShown .pair) := hwrite _
  have hread : (selfShown .lone).read p = .ok (LineEnd.lone.bytes selfShowing) :=
    Disk.read_of_write hlone
  obtain ⟨htext, hfile, hdisks⟩ := line_ends_do_not_matter ht s Desk.start p
  refine ⟨ht, htext base, hread, hfile _ _ hread, hlone, hpair, ?_⟩
  rw [hdisks base _ _ .lone .pair hlone hpair]
  exact ⟨by decide +kernel, by decide +kernel⟩

end Sourcebook
