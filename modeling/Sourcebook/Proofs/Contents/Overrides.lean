-- What the override file of a folder says about one name, and the names of chapters further
-- down. A file says one thing at most about a name.
import Mathlib
import Sourcebook.Contents.Arrange
import Sourcebook.Proofs.Json.Names
import Sourcebook.Proofs.Text.Pieces

namespace Sourcebook

namespace Override

/-- A key that names something: it marks no place and is no separator. -/
def applies (key : String) (o : Override) : Bool := !isRest key && !separates key o

/-- What entries say about a name. -/
def about (entries : List (String × Override)) (name : String) : Option Override :=
  (entries.find? fun e => e.1 == name && applies e.1 e.2).map (·.2)

/-- Entries hide a name. -/
def hides (entries : List (String × Override)) (name : String) : Bool :=
  ((about entries name).map (·.hidden)).getD false

/-- A title after an override: an empty title, or none, leaves it as it is. -/
def retitle (o : Override) (title : String) : String :=
  match o.title with
  | some t => if t.isEmpty then title else t
  | none => title

theorem about_eq_some {entries : List (String × Override)} {name : String} {o : Override}
    (h : about entries name = some o) : (name, o) ∈ entries ∧ applies name o = true := by
  unfold about at h
  obtain ⟨e, he, rfl⟩ := Option.map_eq_some_iff.mp h
  have hp := List.find?_some he
  rw [Bool.and_eq_true, beq_iff_eq] at hp
  obtain ⟨rfl, ha⟩ := hp
  exact ⟨List.mem_of_find?_eq_some he, ha⟩

theorem about_of_mem {entries : List (String × Override)} {name : String} {o : Override}
    (hn : (entries.map (·.1)).Nodup) (h : (name, o) ∈ entries) (ha : applies name o = true) :
    about entries name = some o := by
  unfold about
  induction entries with
  | nil => cases h
  | cons e es ih =>
    rw [List.map_cons, List.nodup_cons] at hn
    rcases List.mem_cons.mp h with rfl | h
    · simp [ha]
    · have hne : e.1 ≠ name := fun he => hn.1 (he ▸ List.mem_map.mpr ⟨_, h, rfl⟩)
      rw [List.find?_cons_of_neg (by simp [hne])]
      exact ih hn.2 h

theorem about_eq_none {entries : List (String × Override)} {name : String} :
    about entries name = none ↔ ∀ o, (name, o) ∈ entries → applies name o = false := by
  unfold about
  rw [Option.map_eq_none_iff, List.find?_eq_none]
  constructor
  · intro h o ho
    simpa using h _ ho
  · rintro h ⟨k, o⟩ he hp
    rw [Bool.and_eq_true, beq_iff_eq] at hp
    obtain ⟨rfl, ha⟩ := hp
    rw [h o he] at ha
    cases ha

theorem about_cons {key name : String} {o : Override} {entries : List (String × Override)} :
    about ((key, o) :: entries) name =
      if key = name ∧ applies key o = true then some o else about entries name := by
  unfold about
  rw [List.find?_cons]
  by_cases h : key = name ∧ applies key o = true
  · rw [if_pos h]
    obtain ⟨rfl, ha⟩ := h
    simp [ha]
  · rw [if_neg h]
    have hf : (key == name && applies key o) = false := by
      rw [Bool.eq_false_iff, ne_eq, Bool.and_eq_true, beq_iff_eq]
      exact h
    simp [hf]

end Override

namespace OverrideFile

theorem entry_key (p : Path) (key : String) (v : Data.Value) : (entry p key v).1.1 = key := by
  unfold entry
  split <;> rfl

/-- A file has each of its keys once. -/
theorem keys_nodup {d : Disk} {p : Path} {file : OverrideFile} (h : read d p = .ok file) :
    (file.entries.map (·.1)).Nodup := by
  have hmembers : ∀ members : List (String × Data.Value), (members.map (·.1)).Nodup →
      ((ofMembers p members).entries.map (·.1)).Nodup := by
    intro members hm
    simpa [ofMembers, entry_key, Function.comp_def] using hm
  have htext : ∀ text, ((ofText p text).entries.map (·.1)).Nodup := by
    intro text
    unfold ofText
    split
    · simp [invalid]
    · next entries hread =>
      exact hmembers _ (Data.members_nodup (Json.tidy_of_read hread _ rfl))
    · simp [invalid]
  unfold read Except.map at h
  split at h
  · cases h
  · cases h
    dsimp only
    split
    · unfold ofBytes
      split
      · simp [invalid]
      · exact htext _
    · simp [none]

end OverrideFile

/-! ## Addresses -/

namespace Arrange

/-- The key under which a folder finds a chapter that stands further down. -/
def address (way : List String) (id : String) : String := Tree.pathText way ++ "/" ++ id

theorem pathText_toList (way : List String) :
    (Tree.pathText way).toList = Text.joinWith '/' (way.map String.toList) := by
  unfold Tree.pathText
  rw [String.toList_intercalate, Text.joinWith_eq_intercalate]
  rfl

theorem address_toList {way : List String} (hw : way ≠ []) (id : String) :
    (address way id).toList = Text.joinWith '/' ((way ++ [id]).map String.toList) := by
  rw [List.map_append, List.map_singleton, Text.joinWith_snoc (by simpa using hw)]
  simp [address, pathText_toList]

/-- An address is read back. -/
theorem hoistKey_address {way : List String} {id : String} (hw : way ≠ [])
    (hs : ∀ s ∈ way, '/' ∉ s.toList) (hid : '/' ∉ id.toList) :
    hoistKey (address way id) = (way, id) := by
  unfold hoistKey
  rw [address_toList hw, Text.splitOn_joinWith (by simp) (by
    intro p hp
    obtain ⟨s, hs', rfl⟩ := List.mem_map.mp hp
    rcases List.mem_append.mp hs' with h | h
    · exact hs s h
    · rw [List.mem_singleton.mp h]
      exact hid)]
  simp [Function.comp_def]

/-- A key with a slash is the address that is read from it. -/
theorem address_hoistKey {key : String} (h : '/' ∈ key.toList) :
    (hoistKey key).1 ≠ [] ∧ address (hoistKey key).1 (hoistKey key).2 = key := by
  have hlen := Text.length_splitOn h
  have hkey : hoistKey key = (((Text.splitOn '/' key.toList).map String.ofList).dropLast,
    ((Text.splitOn '/' key.toList).map String.ofList).getLastD "") := rfl
  rw [hkey]
  generalize hp : (Text.splitOn '/' key.toList).map String.ofList = parts
  have hparts : 2 ≤ parts.length := by rw [← hp, List.length_map]; exact hlen
  have hne : parts ≠ [] := by intro he; rw [he] at hparts; simp at hparts
  have hway : parts.dropLast ≠ [] := by
    intro he
    have := congrArg List.length he
    simp only [List.length_dropLast, List.length_nil] at this
    omega
  refine ⟨hway, ?_⟩
  have hback : parts.dropLast ++ [parts.getLastD ""] = parts := by
    rw [List.getLastD_eq_getLast?, List.getLast?_eq_some_getLast hne]
    exact List.dropLast_append_getLast hne
  apply String.toList_injective
  rw [address_toList hway, hback, ← hp, List.map_map]
  simp [Function.comp_def, Text.joinWith_splitOn]

/-- The identifier in a key has no slash. -/
theorem hoistKey_id (key : String) : '/' ∉ (hoistKey key).2.toList := by
  have hkey : (hoistKey key).2 = ((Text.splitOn '/' key.toList).map String.ofList).getLastD "" := rfl
  rw [hkey, List.getLastD_eq_getLast?]
  cases hlast : ((Text.splitOn '/' key.toList).map String.ofList).getLast? with
  | none => simp
  | some s =>
    obtain ⟨piece, hpiece, rfl⟩ := List.mem_map.mp (List.mem_of_getLast? hlast)
    simpa using Text.not_mem_of_mem_splitOn hpiece

theorem slash_mem_address (way : List String) (id : String) : '/' ∈ (address way id).toList := by
  simp [address]

end Arrange

end Sourcebook
