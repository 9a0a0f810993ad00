-- An override file that is no object of JSON counts as missing. With it and without it every folder
-- is arranged alike, and the turn of each folder that reads it warns of it before anything else is
-- remarked in that turn.
import Mathlib
import Sourcebook.Proofs.Contents.Notices
import Sourcebook.Proofs.Contents.Remarks
import Sourcebook.Proofs.Contents.Hoisting
import Sourcebook.Proofs.Disk.Removing

namespace Sourcebook

open Folder (Every)

namespace OverrideFile

/-- Bytes that are no text, or a text that is no JSON, or JSON that is no object. -/
def malformed (bytes : List UInt8) : Bool :=
  match Text.decodeFile bytes with
  | .error _ => true
  | .ok text =>
    match Json.read text with
    | .ok (.map _) => false
    | _ => true

/-- What is wrong with a malformed file is not a matter of the path that leads to it. -/
theorem ofBytes_malformed {bytes : List UInt8} (h : malformed bytes = true) :
    ∃ reason, ∀ p, ofBytes p bytes = invalid p reason := by
  unfold malformed at h
  unfold ofBytes
  cases htext : Text.decodeFile bytes with
  | error u => exact ⟨u.message, fun _ => rfl⟩
  | ok text =>
    rw [htext] at h
    dsimp only [ofText] at h ⊢
    cases hread : Json.read text with
    | error e => exact ⟨e.message, fun _ => rfl⟩
    | ok v =>
      cases v with
      | map entries =>
        rw [hread] at h
        cases h
      | _ => exact ⟨"top-level value must be an object", fun _ => rfl⟩

/-- A file of the first disk, which nobody can make sense of, is missing on the second one. -/
structure Missing (d d' : Disk) (l : Location) (reason : String) : Prop where
  there : ∀ p, d.Leads p l → read d p = .ok (invalid p reason) ∧ read d' p = .ok none
  elsewhere : ∀ p, ¬ d.Leads p l → read d' p = read d p

theorem missing_removeTree {d : Disk} {l : Location} {bytes : List UInt8}
    (hl : d.fileAt l = some bytes) (hm : malformed bytes = true) :
    ∃ reason, Missing d (d.removeTree l) l reason := by
  obtain ⟨reason, hreason⟩ := ofBytes_malformed hm
  refine ⟨reason, fun p hp => ⟨?_, ?_⟩, fun p hp => ?_⟩
  · rw [read, Disk.find?_of_leads hl hp, ← hreason]
    rfl
  · rw [read, Disk.find?_removeTree hl, if_pos hp]
    rfl
  · rw [read, read, Disk.find?_removeTree hl, if_neg hp]

end OverrideFile

namespace Arrange

variable {disk gone : Disk} {l : Location} {reason metaName : String} {way : List String}
  {w w' : Work} {info : FolderInfo} {children : List Folder}

/-! ## Turns -/

/-- The turn of one folder: where its override file is looked for, and what is remarked. -/
structure Turn where
  way : List String
  file : Path
  remarks : List Notice

/-- The turn of a folder when those inside it had theirs. After trouble it does not come. -/
def turnHere (disk : Disk) (metaName : String) (way : List String) (w : Work)
    (info : FolderInfo) (children : List Folder) : List Turn :=
  let path := info.source.join (Path.ofString metaName)
  match w.stop, OverrideFile.read disk path with
  | none, .ok file => [⟨way, path, remarksBy file metaName way w info children⟩]
  | _, _ => []

mutual

/-- The turns of a folder and of those inside it, in their order. -/
def turns (disk : Disk) (metaName : String) (way : List String) (w : Work) : Folder → List Turn
  | .mk info children =>
    turnsAll disk metaName way w children
      ++ turnHere disk metaName way (arrangeAll disk metaName way w children).1 info
        (arrangeAll disk metaName way w children).2

def turnsAll (disk : Disk) (metaName : String) (way : List String) (w : Work) :
    List Folder → List Turn
  | [] => []
  | c :: rest =>
    turns disk metaName (way ++ [c.segment]) w c
      ++ turnsAll disk metaName way (arrange disk metaName (way ++ [c.segment]) w c).1 rest

end

theorem remarksHere_eq : remarksHere disk metaName way w info children =
    (turnHere disk metaName way w info children).flatMap (·.remarks) := by
  unfold remarksHere turnHere
  dsimp only
  cases w.stop with
  | some t => rfl
  | none =>
    cases OverrideFile.read disk (info.source.join (Path.ofString metaName)) with
    | error t => rfl
    | ok file => simp

theorem remarksAll_eq {cs : List Folder}
    (hone : ∀ c ∈ cs, ∀ v w, remarks disk metaName v w c =
      (turns disk metaName v w c).flatMap (·.remarks)) :
    remarksAll disk metaName way w cs = (turnsAll disk metaName way w cs).flatMap (·.remarks) := by
  induction cs generalizing w with
  | nil => simp [remarksAll, turnsAll]
  | cons c cs ih =>
    rw [remarksAll, turnsAll, List.flatMap_append, hone c List.mem_cons_self,
      ih fun d hd => hone d (List.mem_cons_of_mem _ hd)]

/-- All that is remarked is remarked in some turn. -/
theorem remarks_eq (f : Folder) :
    remarks disk metaName way w f = (turns disk metaName way w f).flatMap (·.remarks) := by
  induction f generalizing way w with
  | mk info children ih =>
    rw [remarks, turns, List.flatMap_append, remarksHere_eq, remarksAll_eq fun c hc v w => ih c hc]

mutual

/-- The folders of a tree with the paths of their override files, folders inside first. -/
def visits (metaName : String) (way : List String) : Folder → List (List String × Path)
  | .mk info children =>
    visitsAll metaName way children ++ [(way, info.source.join (Path.ofString metaName))]

def visitsAll (metaName : String) (way : List String) : List Folder → List (List String × Path)
  | [] => []
  | c :: rest => visits metaName (way ++ [c.segment]) c ++ visitsAll metaName way rest

end

theorem turnsAll_visits {cs : List Folder}
    (hone : ∀ c ∈ cs, ∀ v w, w.stop = none →
      (turns disk metaName v w c).map (fun u => (u.way, u.file)) = visits metaName v c)
    (hread : ∀ c ∈ cs, Readable disk metaName c) (hw : w.stop = none) :
    (turnsAll disk metaName way w cs).map (fun u => (u.way, u.file)) = visitsAll metaName way cs := by
  induction cs generalizing w with
  | nil => simp [turnsAll, visitsAll]
  | cons c cs ih =>
    rw [turnsAll, visitsAll, List.map_append, hone c List.mem_cons_self _ _ hw,
      ih (fun d hd => hone d (List.mem_cons_of_mem _ hd))
        (fun d hd => hread d (List.mem_cons_of_mem _ hd))
        (arrange_returns (hread c List.mem_cons_self) hw)]

/-- Where all override files can be looked for, each folder has its turn. -/
theorem turns_visits {f : Folder} (hf : Readable disk metaName f) (hw : w.stop = none) :
    (turns disk metaName way w f).map (fun u => (u.way, u.file)) = visits metaName way f := by
  induction f generalizing way w with
  | mk info children ih =>
    have hinside : ∀ c ∈ children, Readable disk metaName c := fun c hc => hf.child hc
    have hok := hf.here
    cases hfile : fileAt disk metaName info with
    | error t =>
      rw [Folder.info_mk, hfile] at hok
      cases hok
    | ok file =>
      have hstop : (arrangeAll disk metaName way w children).1.stop = none :=
        arrangeAll_returns (fun c hc v w h => arrange_returns (hinside c hc) h) hw
      rw [turns, visits, List.map_append,
        turnsAll_visits (fun c hc v w h => ih c hc (hinside c hc) h) hinside hw]
      unfold turnHere
      dsimp only
      rw [hstop, show OverrideFile.read _ _ = _ from hfile]
      rfl

/-! ## Work that differs in its notices -/

def Work.bare (w : Work) : Work := { w with notices := [] }

/-- What comes of a folder, apart from the notices. -/
def silent {α : Type} (r : Work × α) : Work × α := (r.1.bare, r.2)

theorem Work.bare_after (w : Work) : w.bare.after w.notices = w := by
  simp [bare, after]

theorem arrangeBy_silent (file : OverrideFile) (h : w.bare = w'.bare) :
    silent (arrangeBy file metaName way w info children) =
      silent (arrangeBy file metaName way w' info children) := by
  rw [← w.bare_after, ← w'.bare_after, h, arrangeBy_after, arrangeBy_after]
  rfl

theorem remarksBy_silent (file : OverrideFile) (h : w.bare = w'.bare) :
    remarksBy file metaName way w info children = remarksBy file metaName way w' info children := by
  have hbare : ∀ v : Work, remarksBy file metaName way v info children =
      remarksBy file metaName way v.bare info children := by
    intro v
    have hafter := congrArg (·.1.notices)
      (@arrangeBy_after v.notices v.bare metaName way info children file)
    rw [v.bare_after] at hafter
    simpa [Work.after, Work.bare, arrangeBy_notices] using hafter
  rw [hbare w, hbare w', h]

/-! ## With a malformed file and without it -/

/-- The warning that a file is malformed is given before the turn remarks on anything else. -/
def Turn.blame (disk : Disk) (l : Location) (reason : String) (u : Turn) : Turn :=
  if disk.Leads u.file l then
    { u with remarks := .warning ("Invalid JSON in " ++ u.file.text ++ ": " ++ reason) :: u.remarks }
  else u

/-- A malformed file leaves nothing of its own but the warning. -/
theorem arrangeBy_invalid (p : Path) :
    silent (arrangeBy (.invalid p reason) metaName way w info children) =
      silent (arrangeBy .none metaName way w info children) :=
  @arrangeBy_silent metaName way (w.warn ("Invalid JSON in " ++ p.text ++ ": " ++ reason)) w info
    children .none rfl

theorem remarksBy_invalid (p : Path) :
    remarksBy (.invalid p reason) metaName way w info children =
      .warning ("Invalid JSON in " ++ p.text ++ ": " ++ reason) ::
        remarksBy .none metaName way w info children := by
  simp [remarksBy, OverrideFile.invalid, OverrideFile.none, Draft.remarks]

theorem arrangeAll_missing {cs : List Folder}
    (hone : ∀ c ∈ cs, ∀ v w w', w.bare = w'.bare →
      silent (arrange disk metaName v w c) = silent (arrange gone metaName v w' c) ∧
      turns disk metaName v w c = (turns gone metaName v w' c).map (Turn.blame disk l reason))
    (h : w.bare = w'.bare) :
    silent (arrangeAll disk metaName way w cs) = silent (arrangeAll gone metaName way w' cs) ∧
    turnsAll disk metaName way w cs =
      (turnsAll gone metaName way w' cs).map (Turn.blame disk l reason) := by
  induction cs generalizing w w' with
  | nil => simpa [arrangeAll, turnsAll, silent] using h
  | cons c cs ih =>
    obtain ⟨hc, hturns⟩ := hone c List.mem_cons_self (way ++ [c.segment]) w w' h
    obtain ⟨hcs, hrest⟩ := ih (fun d hd => hone d (List.mem_cons_of_mem _ hd)) (congrArg (·.1) hc)
    rw [arrangeAll_cons, arrangeAll_cons, turnsAll, turnsAll, List.map_append, hturns, hrest]
    refine ⟨Prod.ext (congrArg (·.1) hcs) ?_, rfl⟩
    exact congrArg₂ List.cons (congrArg (·.2) hc) (congrArg (·.2) hcs)

variable (hmissing : OverrideFile.Missing disk gone l reason)
include hmissing

theorem arrangeHere_missing (h : w.bare = w'.bare) :
    silent (arrangeHere disk metaName way w info children) =
      silent (arrangeHere gone metaName way w' info children) ∧
    turnHere disk metaName way w info children =
      (turnHere gone metaName way w' info children).map (Turn.blame disk l reason) := by
  have hstop : w.stop = w'.stop := congrArg (·.stop) h
  unfold arrangeHere turnHere
  dsimp only
  generalize info.source.join (Path.ofString metaName) = p
  rw [← hstop]
  cases w.stop with
  | some t => exact ⟨congrArg (·, _) h, rfl⟩
  | none =>
    by_cases hp : disk.Leads p l
    · obtain ⟨hread, hnone⟩ := hmissing.there p hp
      rw [hread, hnone]
      refine ⟨(arrangeBy_invalid p).trans (arrangeBy_silent _ h), ?_⟩
      simp only [List.map_cons, List.map_nil, Turn.blame, if_pos hp, remarksBy_invalid,
        remarksBy_silent _ h]
    · rw [hmissing.elsewhere p hp]
      cases OverrideFile.read disk p with
      | error t => exact ⟨congrArg (fun v : Work => ({ v with stop := some t }, _)) h, rfl⟩
      | ok file =>
        refine ⟨arrangeBy_silent file h, ?_⟩
        simp only [List.map_cons, List.map_nil, Turn.blame, if_neg hp, remarksBy_silent _ h]

/-- The two passes go in step: after each folder they have the same folder, the same chapters and
the same trouble. -/
theorem arrange_missing {f : Folder} (h : w.bare = w'.bare) :
    silent (arrange disk metaName way w f) = silent (arrange gone metaName way w' f) ∧
    turns disk metaName way w f =
      (turns gone metaName way w' f).map (Turn.blame disk l reason) := by
  induction f generalizing way w w' with
  | mk info children ih =>
    obtain ⟨hinside, hturns⟩ := arrangeAll_missing (fun c hc v w w' => ih c hc) h
    have hchildren := congrArg (·.2) hinside
    obtain ⟨hhere, hturn⟩ := arrangeHere_missing hmissing (congrArg (·.1) hinside)
    rw [arrange_mk, arrange_mk, turns, turns, List.map_append, hturns,
      show (arrangeAll disk metaName way w children).2 = _ from hchildren]
    exact ⟨hhere, congrArg _ hturn⟩

end Arrange

namespace Tree

/-- The turns of the folders of a tree that is arranged. -/
def turns (t : Tree) (disk : Disk) : List Arrange.Turn :=
  Arrange.turns disk t.metaName [] ⟨t.chapters, [], none⟩ t.root

theorem notices_eq_turns (t : Tree) (disk : Disk) :
    (t.arrange disk).2.1 = (t.turns disk).flatMap (·.remarks) :=
  (t.arrange_notices disk).trans (Arrange.remarks_eq t.root)

/-- A malformed override file counts as one that is missing: with it and without it a tree is
arranged to the same tree with the same trouble. The turn of each folder that reads the file warns of
it first, and all other turns remark the same. Where every override file can be looked for there is
no trouble, and each folder has one turn. -/
theorem a_malformed_override_file_counts_as_missing {t : Tree} {disk : Disk} {l : Location}
    {bytes : List UInt8} (hl : disk.fileAt l = some bytes) (hm : OverrideFile.malformed bytes = true) :
    let gone := disk.removeTree l
    (t.arrange disk).1 = (t.arrange gone).1 ∧ (t.arrange disk).2.2 = (t.arrange gone).2.2 ∧
    (t.arrange disk).2.1 = (t.turns disk).flatMap (·.remarks) ∧
    (t.arrange gone).2.1 = (t.turns gone).flatMap (·.remarks) ∧
    (∃ reason, t.turns disk = (t.turns gone).map (Arrange.Turn.blame disk l reason)) ∧
    (Arrange.Readable disk t.metaName t.root → (t.arrange disk).2.2 = none ∧
      (t.turns disk).map (fun u => (u.way, u.file)) = Arrange.visits t.metaName [] t.root) := by
  intro gone
  obtain ⟨reason, hmissing⟩ := OverrideFile.missing_removeTree hl hm
  obtain ⟨hsame, hturns⟩ := @Arrange.arrange_missing disk gone l reason t.metaName []
    ⟨t.chapters, [], none⟩ ⟨t.chapters, [], none⟩ hmissing t.root rfl
  refine ⟨?_, congrArg (·.1.stop) hsame, t.notices_eq_turns disk, t.notices_eq_turns gone,
    ⟨reason, hturns⟩, fun hr => ⟨Arrange.arrange_returns hr rfl, Arrange.turns_visits hr rfl⟩⟩
  exact congrArg (fun r => ({ t with root := r.2, chapters := r.1.chapters } : Tree)) hsame

/-- The override file of the lower folder is cut off behind a brace. -/
def brokenDisk : Disk :=
  ⟨[(["r"], .directory), (["r", "a"], .directory), (["r", "_meta.json"], .file sampleTop),
    (["r", "a", "_meta.json"], .file (Text.encode "\x7b"))]⟩

theorem a_broken_file_is_as_good_as_none :
    brokenDisk.fileAt ["r", "a", "_meta.json"] = some (Text.encode "\x7b") ∧
    OverrideFile.malformed (Text.encode "\x7b") = true ∧
    (sampleTree.arrange brokenDisk).1 =
      (sampleTree.arrange (brokenDisk.removeTree ["r", "a", "_meta.json"])).1 ∧
    (sampleTree.arrange brokenDisk).2.2 = none := by
  have hl : brokenDisk.fileAt ["r", "a", "_meta.json"] = some (Text.encode "\x7b") := by decide +kernel
  have hm : OverrideFile.malformed (Text.encode "\x7b") = true := by decide +kernel
  obtain ⟨hsame, -, -, -, -, hreturns⟩ :=
    @a_malformed_override_file_counts_as_missing sampleTree _ _ _ hl hm
  have hr : Arrange.Readable brokenDisk "_meta.json" sampleTree.root :=
    Folder.every_iff.mpr (show ∀ n ∈ Folder.nodes [] _, _ by decide +kernel)
  exact ⟨hl, hm, hsame, (hreturns hr).1⟩

/-- Two folders that are mounted on one directory, each with a chapter. -/
def twiceMounted : Tree :=
  made ⟨.single, ["r"]⟩ "_meta.json"
    [.chapter ⟨"x", "X", "a.ts", "a", 100, [], none⟩ "a",
      .chapter ⟨"y", "Y", "b.ts", "b", 100, [], none⟩ "b",
      .mount "a" ⟨.single, ["r", "x"]⟩, .mount "b" ⟨.single, ["r", "x"]⟩]

/-- Folders that share a directory share its override file, and each of them warns of it. -/
theorem a_malformed_file_is_warned_of_in_each_folder_that_reads_it :
    let disk : Disk :=
      ⟨[(["r"], .directory), (["r", "x"], .directory),
        (["r", "x", "_meta.json"], .file (Text.encode "\x7b"))]⟩
    (twiceMounted.arrange disk).2.1 = List.replicate 2 (.warning ("Invalid JSON in /r/x/_meta.json: "
      ++ "Expecting property name enclosed in double quotes: line 1 column 2 (char 1)")) ∧
    (twiceMounted.arrange (disk.removeTree ["r", "x", "_meta.json"])).2.1 = [] := by
  decide +kernel

end Tree

end Sourcebook
