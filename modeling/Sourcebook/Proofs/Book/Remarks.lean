-- What a book remarks is what its steps remark, in turn: an event and a file that is left
-- unread add their own notices at the end, also where the reading breaks off later.
import Mathlib
import Sourcebook.Proofs.Book.Conflicts

namespace Sourcebook

variable {disk : Disk} {s : Settings}

/-! ## Events -/

/-- What a book remarks on an event that it takes: the notice that it brings, or a conflict. -/
def Book.remarksOn (b : Book) : Event → List Notice
  | .notice n => [n]
  | e => ((b.conflict? e).map Notice.warning).toList

theorem Book.apply_notices {b b' : Book} {e : Event} (h : b.apply s e = .ok b') :
    b'.notices = b.notices ++ b.remarksOn e := by
  cases e with
  | declare source line id title =>
    simp only [remarksOn, conflict?]
    rcases declare_ok h with ⟨hnone, rfl⟩ | ⟨c, hfind, ⟨hfree, rfl⟩ | ⟨hclash, rfl⟩⟩
    · simp [hnone]
    · simp [hfind, hfree]
    · simp [hfind, hclash, warn, remark]
  | notice n =>
    cases h
    rfl
  | _ =>
    cases h
    exact (List.append_nil _).symm

namespace Desk

variable {d d' : Desk}

/-- What a desk remarks on events, up to the first that it refuses. -/
def remarksOn (s : Settings) (d : Desk) : List Event → List Notice
  | [] => []
  | e :: rest =>
    match d.apply s e with
    | .error _ => []
    | .ok d' => d.book.remarksOn e ++ d'.remarksOn s rest

theorem applyAll_notices (s : Settings) (d : Desk) (events : List Event) :
    (d.applyAll s events).1.book.notices = d.book.notices ++ d.remarksOn s events := by
  induction events generalizing d with
  | nil => exact (List.append_nil _).symm
  | cons e rest ih =>
    unfold applyAll remarksOn
    cases he : d.apply s e with
    | error text => exact (List.append_nil _).symm
    | ok d' =>
      dsimp only
      rw [ih, Book.apply_notices (apply_book he), List.append_assoc]

theorem closeText_notices (source : Location) (stop : Option LookupError)
    (x : Desk × Option String) : (closeText source stop x).1.book.notices = x.1.book.notices := by
  obtain ⟨d, _ | text⟩ := x
  · cases stop <;> rfl
  · rfl

end Desk

/-! ## Files -/

open Desk (FileError)

/-- What one reading remarks. -/
def Reading.remarks (disk : Disk) (s : Settings) (d : Desk) (r : Reading) : List Notice :=
  match r.opened disk with
  | .error _ => []
  | .ok (source, text) => d.remarksOn s (Event.ofText ⟨disk, s, d.listed⟩ source text).1

theorem Reading.read_notices (d : Desk) (r : Reading) :
    (r.read disk s d).1.book.notices = d.book.notices ++ r.remarks disk s d := by
  rw [read_eq]
  unfold remarks
  cases r.opened disk with
  | error e => exact (List.append_nil _).symm
  | ok opened =>
    dsimp only
    rw [Desk.readText_eq, Desk.closeText_notices, Desk.applyAll_notices]

namespace Policy

/-- What is remarked when a reading has broken off and the next one is taken up. -/
def remark (policy : Policy) (r : Reading) : Option FileError → List Notice
  | none => []
  | some (.scan (.conflict _)) => []
  | some e =>
    match policy r e with
    | .stop => []
    | .goOn warning => (warning.map Notice.warning).toList

/-- What readings remark in turn, up to one that ends them. -/
def remarks (policy : Policy) (disk : Disk) (s : Settings) (d : Desk) : List Reading → List Notice
  | [] => []
  | r :: rest =>
    r.remarks disk s d ++ policy.remark r (r.read disk s d).2 ++
      match policy.answer r (r.read disk s d) with
      | (d, none) => policy.remarks disk s d rest
      | (_, some _) => []

theorem answer_notices (policy : Policy) (r : Reading) (x : Desk × Option FileError) :
    (policy.answer r x).1.book.notices = x.1.book.notices ++ policy.remark r x.2 := by
  unfold answer
  split
  · exact (List.append_nil _).symm
  · exact (List.append_nil _).symm
  · next d e hconflict =>
    simp only [remark]
    cases policy r e with
    | stop => exact (List.append_nil _).symm
    | goOn warning =>
      cases warning with
      | none => exact (List.append_nil _).symm
      | some text => rfl

theorem readAll_notices (policy : Policy) (disk : Disk) (s : Settings) (d : Desk) (rs : List Reading) :
    (policy.readAll disk s d rs).1.book.notices = d.book.notices ++ policy.remarks disk s d rs := by
  induction rs generalizing d with
  | nil => exact (List.append_nil _).symm
  | cons r rest ih =>
    have hone : (policy.answer r (r.read disk s d)).1.book.notices =
        d.book.notices ++ (r.remarks disk s d ++ policy.remark r (r.read disk s d).2) := by
      rw [answer_notices, Reading.read_notices, List.append_assoc]
    unfold readAll remarks
    rcases hanswer : policy.answer r (r.read disk s d) with ⟨d', _ | e⟩
    · rw [hanswer] at hone
      dsimp only at hone ⊢
      rw [ih, hone, List.append_assoc]
    · rw [hanswer] at hone
      dsimp only at hone ⊢
      rw [hone, List.append_nil]

end Policy

/-- What is remarked while the files of a project are read. -/
def Book.remarks (disk : Disk) (s : Settings) : List Notice :=
  match Discovery.files disk s with
  | .error _ => []
  | .ok files => Policy.skipping.remarks disk s ⟨.empty, some files⟩ (Policy.files files)

theorem Book.remarks_of_error {e : GlobError} (h : Book.ofProject disk s = .error e) :
    Book.remarks disk s = [] := by
  rw [Book.ofProject_eq] at h
  unfold Book.remarks
  cases hfiles : Discovery.files disk s with
  | error e => rfl
  | ok files =>
    rw [hfiles] at h
    cases h

/-- A book holds every remark that was made on the way to it. -/
theorem Book.ofProject_notices {files : List Location} {desk : Desk} {stop : Option ScanError}
    (h : Book.ofProject disk s = .ok (files, desk, stop)) : desk.book.notices = Book.remarks disk s := by
  rw [Book.ofProject_eq] at h
  unfold Book.remarks
  cases hfiles : Discovery.files disk s with
  | error e =>
    rw [hfiles] at h
    cases h
  | ok found =>
    rw [hfiles] at h
    obtain ⟨rfl, hread'⟩ := Prod.mk.inj (Except.ok.inj h)
    have hread := Policy.skipping.readAll_notices disk s ⟨.empty, some found⟩ (Policy.files found)
    rw [Policy.readAll_skipping, hread'] at hread
    exact hread

end Sourcebook
