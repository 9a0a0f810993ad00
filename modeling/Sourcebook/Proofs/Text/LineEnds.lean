-- The three ways to end a line. A text that is written with any of them is the same text again once
-- its line ends are unified, and has the same lines.
import Mathlib
import Sourcebook.Proofs.Text.Bytes
import Sourcebook.Proofs.Text.Pieces

namespace Sourcebook.Text

/-- What ends the lines of a text. -/
inductive LineEnd where
  | feed
  | pair
  | lone
  deriving Repr, DecidableEq

namespace LineEnd

def text : LineEnd → List Char
  | .feed => ['\n']
  | .pair => ['\r', '\n']
  | .lone => ['\r']

/-- The text with other line ends for its line feeds. -/
def write (e : LineEnd) (t : List Char) : List Char :=
  t.flatMap fun c => if c = '\n' then e.text else [c]

/-- The bytes of a text with these line ends. -/
def bytes (e : LineEnd) (t : List Char) : List UInt8 := encode (String.ofList (e.write t))

variable {c : Char} {t : List Char}

@[simp] theorem write_nil (e : LineEnd) : e.write [] = [] := rfl

theorem write_cons_feed (e : LineEnd) (t : List Char) :
    e.write ('\n' :: t) = e.text ++ e.write t := by
  simp [write]

theorem write_cons (h : c ≠ '\n') (e : LineEnd) (t : List Char) :
    e.write (c :: t) = c :: e.write t := by
  simp [write, h]

theorem write_append (e : LineEnd) (s t : List Char) : e.write (s ++ t) = e.write s ++ e.write t :=
  List.flatMap_append

theorem write_of_not_mem (h : '\n' ∉ t) (e : LineEnd) : e.write t = t := by
  induction t with
  | nil => rfl
  | cons c t ih =>
    rw [List.mem_cons, not_or] at h
    rw [write_cons (Ne.symm h.1), ih h.2]

/-- Where carriage returns alone end the lines, no line feed is left. -/
theorem not_mem_write_lone (t : List Char) : '\n' ∉ lone.write t := by
  unfold write
  rw [List.mem_flatMap]
  rintro ⟨c, -, hc⟩
  split at hc
  · cases hc with
    | tail _ h => cases h
  · next hne => exact hne (List.mem_singleton.mp hc).symm

end LineEnd

variable {t : List Char}

theorem unifyLineEnds_cons {c : Char} (h : c ≠ '\r') (t : List Char) :
    unifyLineEnds (c :: t) = c :: unifyLineEnds t := by
  rw [unifyLineEnds, if_neg h]
  exact fun _ hc => absurd hc h

theorem unifyLineEnds_return (h : t.head? ≠ some '\n') :
    unifyLineEnds ('\r' :: t) = '\n' :: unifyLineEnds t := by
  rw [unifyLineEnds, if_pos rfl]
  rintro u - rfl
  exact h rfl

/-- Unified line ends are line feeds, whichever were written. -/
theorem unifyLineEnds_write (h : '\r' ∉ t) (e : LineEnd) : unifyLineEnds (e.write t) = t := by
  induction t with
  | nil => rfl
  | cons c t ih =>
    rw [List.mem_cons, not_or] at h
    by_cases hc : c = '\n'
    · subst hc
      rw [LineEnd.write_cons_feed]
      cases e with
      | feed => exact (unifyLineEnds_cons (by decide) _).trans (congrArg _ (ih h.2))
      | pair => exact congrArg ('\n' :: ·) (ih h.2)
      | lone =>
        -- The return does not make a pair with what follows, since no feed is left there.
        have hhead : (LineEnd.lone.write t).head? ≠ some '\n' := fun hhead =>
          LineEnd.not_mem_write_lone t (List.mem_of_mem_head? hhead)
        exact (unifyLineEnds_return hhead).trans (congrArg _ (ih h.2))
    · rw [LineEnd.write_cons hc, unifyLineEnds_cons (Ne.symm h.1), ih h.2]

/-- The bytes of a text hold the text, whichever line ends are written. -/
theorem decodeFile_bytes (h : '\r' ∉ t) (e : LineEnd) : decodeFile (e.bytes t) = .ok t := by
  rw [LineEnd.bytes, decodeFile, decode_encode]
  exact congrArg Except.ok (unifyLineEnds_write h e)

/-! ## Lines -/

theorem dropReturn_snoc (s : List Char) : dropReturn (s ++ ['\r']) = s := by
  induction s with
  | nil => rfl
  | cons c s ih =>
    rw [List.cons_append, dropReturn, ih]
    rintro - h
    exact List.append_ne_nil_of_right_ne_nil s (List.cons_ne_nil _ _) h

theorem dropReturn_of_not_mem {s : List Char} (h : '\r' ∉ s) : dropReturn s = s := by
  induction s with
  | nil => rfl
  | cons c s ih =>
    rw [List.mem_cons, not_or] at h
    rw [dropReturn, ih h.2]
    rintro rfl -
    exact h.1 rfl

theorem map_dropReturn {ps : List (List Char)} (h : ∀ p ∈ ps, '\r' ∉ p) : ps.map dropReturn = ps :=
  (List.map_congr_left fun p hp => dropReturn_of_not_mem (h p hp)).trans (List.map_id ps)

/-- Lines that are joined by pairs come back once their carriage returns are dropped. -/
theorem splitLines_write_pair {ls : List (List Char)} (hne : ls ≠ []) (hfeed : ∀ l ∈ ls, '\n' ∉ l)
    (hreturn : ∀ l ∈ ls, '\r' ∉ l) :
    (splitLines (LineEnd.pair.write (joinLines ls))).map dropReturn = ls := by
  induction ls with
  | nil => exact absurd rfl hne
  | cons l rest ih =>
    obtain ⟨hl, hfeed⟩ := List.forall_mem_cons.mp hfeed
    obtain ⟨hl', hreturn⟩ := List.forall_mem_cons.mp hreturn
    unfold splitLines joinLines at *
    cases rest with
    | nil =>
      rw [joinWith, LineEnd.write_of_not_mem hl, splitOn_of_not_mem hl]
      exact congrArg (fun x => [x]) (dropReturn_of_not_mem hl')
    | cons l' rest =>
      have hsnoc : '\n' ∉ l ++ ['\r'] := by
        rw [List.mem_append, not_or]
        exact ⟨hl, by decide⟩
      have hwrite : LineEnd.pair.write (l ++ '\n' :: joinWith '\n' (l' :: rest)) =
          l ++ ['\r'] ++ '\n' :: LineEnd.pair.write (joinWith '\n' (l' :: rest)) := by
        rw [LineEnd.write_append, LineEnd.write_of_not_mem hl, LineEnd.write_cons_feed,
          List.append_assoc]
        rfl
      rw [joinWith_cons (List.cons_ne_nil _ _), hwrite, splitOn_append hsnoc, List.map_cons,
        dropReturn_snoc, ih (List.cons_ne_nil _ _) hfeed hreturn]

end Sourcebook.Text
