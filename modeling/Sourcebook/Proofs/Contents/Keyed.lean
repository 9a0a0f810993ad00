-- What every key of a file lists. The keys list in their order, and what they leave goes to the
-- place of the last key that marks it.
import Mathlib
import Sourcebook.Proofs.Contents.Here

namespace Sourcebook

open Folder (Lost Every Tidy)

/-! ## The place of the rest -/

namespace Override

variable {e : String × Override} {entries : List (String × Override)}

/-- Some entry marks the place of the rest. -/
def marksRest (entries : List (String × Override)) : Bool := entries.any (isRest ·.1)

/-- The entries up to the last one that marks the place of the rest; all, when none does. -/
def front (entries : List (String × Override)) : List (String × Override) :=
  if marksRest entries then entries.rdropWhile (!isRest ·.1) else entries

/-- The entries behind the last one that marks the place of the rest. -/
def back (entries : List (String × Override)) : List (String × Override) :=
  if marksRest entries then entries.rtakeWhile (!isRest ·.1) else []

theorem front_append_back : front entries ++ back entries = entries := by
  unfold front back
  split
  · exact List.rdropWhile_append_rtakeWhile
  · exact List.append_nil _

theorem marksRest_snoc : marksRest (entries ++ [e]) = (marksRest entries || isRest e.1) := by
  simp [marksRest]

theorem front_snoc_of_rest (h : isRest e.1 = true) : front (entries ++ [e]) = entries ++ [e] := by
  unfold front
  rw [marksRest_snoc, h, Bool.or_true, if_pos rfl, List.rdropWhile_concat_neg _ _ _ (by simp [h])]

theorem front_snoc (h : isRest e.1 = false) (hm : marksRest entries = true) :
    front (entries ++ [e]) = front entries := by
  unfold front
  rw [marksRest_snoc, hm, Bool.true_or, if_pos rfl, if_pos rfl,
    List.rdropWhile_concat_pos _ _ _ (by simp [h])]

/-- A key applies when it marks no place and is no separator. -/
theorem applies_of {key : String} {o : Override} (h : isRest key = false)
    (hs : separates key o = false) : applies key o = true := by
  simp [applies, h, hs]

end Override

/-- An item after an override. Only pages carry their title; the titles of chapters and the
labels of folders are kept with them. -/
def Item.retitled (o : Override) : Item → Item
  | .page p => .page { p with title := o.retitle p.title }
  | item => item

namespace Arrange

variable {d : Draft} {path metaName key : String} {o : Override} {held : List (String × Item)}
  {entries : List (String × Override)}

/-- What a key lists: a separator, what it names among what is held, or the chapter that stands at
its address. -/
def keyed (held : List (String × Item)) (homes : String → List (List String))
    (e : String × Override) : List Item :=
  if Override.isRest e.1 then []
  else if Override.separates e.1 e.2 then [.separator (e.2.title.getD "")]
  else if e.2.hidden then []
  else (named held e.1).map (Item.retitled e.2) ++
    if '/' ∈ e.1.toList ∧ (hoistKey e.1).1 ∈ homes (hoistKey e.1).2 then [.chapter (hoistKey e.1).2]
    else []

/-! ## One key -/

theorem Draft.key_of_rest (h : Override.isRest key = true) :
    d.key path metaName held key o = { d with restAt := some d.configured.length } := by
  unfold Draft.key
  rw [if_pos h]

theorem Draft.key_of_separator (h : Override.isRest key = false)
    (hs : Override.separates key o = true) : d.key path metaName held key o =
      { d with configured := d.configured ++ [.separator (o.title.getD "")] } := by
  unfold Draft.key
  rw [if_neg (by simp [h]), if_pos hs]

theorem Draft.configured_place (d : Draft) (o : Override) (item : Item) :
    (d.place o item).configured =
      d.configured ++ if o.hidden then [] else [item.retitled o] := by
  unfold Draft.place Item.retitled Override.retitle
  cases ht : o.title with
  | none =>
    dsimp only
    cases o.hidden with
    | true => simp
    | false => cases item <;> rfl
  | some title =>
    dsimp only
    by_cases he : title.isEmpty = true
    · simp only [he, if_true]
      cases o.hidden with
      | true => simp
      | false => cases item <;> rfl
    · simp only [he, Bool.false_eq_true, if_false]
      cases o.hidden with
      | true => simp [d.rename_configured title item]
      | false => cases item <;> rfl

theorem Draft.configured_places (o : Override) (items : List Item) (d : Draft) :
    (items.foldl (fun d item => d.place o item) d).configured =
      d.configured ++ if o.hidden then [] else items.map (Item.retitled o) := by
  induction items generalizing d with
  | nil => simp
  | cons item items ih =>
    rw [List.foldl_cons, ih, configured_place]
    split <;> simp

theorem Draft.restAt_place (d : Draft) (o : Override) (item : Item) :
    (d.place o item).restAt = d.restAt := by
  obtain ⟨e, he, hplace⟩ := d.place_cases o item
  have hrest : e.1.restAt = d.restAt := by
    rcases he with rfl | ⟨title, rfl⟩
    · rfl
    · cases item <;> rfl
  rw [hplace]
  split <;> exact hrest

theorem Draft.restAt_places (o : Override) (items : List Item) (d : Draft) :
    (items.foldl (fun d item => d.place o item) d).restAt = d.restAt := by
  induction items generalizing d with
  | nil => rfl
  | cons item items ih => rw [List.foldl_cons, ih, restAt_place]

theorem Draft.restAt_key : (d.key path metaName held key o).restAt =
    if Override.isRest key then some d.configured.length else d.restAt := by
  cases hr : Override.isRest key with
  | true => rw [key_of_rest hr, if_pos rfl]
  | false =>
    rw [if_neg (by simp)]
    cases hs : Override.separates key o with
    | true => rw [key_of_separator hr hs]
    | false =>
      have ha := Override.applies_of hr hs
      have hturn := d.key_turn path metaName held key o
      generalize d.key path metaName held key o = e at hturn
      cases hturn with
      | rest hn => cases ha.symm.trans hn
      | separator hn => cases ha.symm.trans hn
      | named _ _ => rw [restAt_places]
      | missed _ _ _ _ => rfl
      | hoisted _ _ _ _ => rw [restAt_place, Draft.taken]
      | unknown _ _ _ _ _ => rfl

/-- Where chapters stand is not changed by placing. -/
theorem Draft.homes_place (d : Draft) (o : Override) (item : Item) (id : String) :
    ((d.place o item).sight id).homes = (d.sight id).homes := by
  by_cases h : item = .chapter id
  · rw [h, sight_place_self]
    rfl
  · rw [sight_place_of_ne h]

theorem Draft.homes_places (o : Override) (items : List Item) (d : Draft) (id : String) :
    ((items.foldl (fun d item => d.place o item) d).sight id).homes = (d.sight id).homes := by
  induction items generalizing d with
  | nil => rfl
  | cons item items ih => rw [List.foldl_cons, ih, homes_place]

/-- A chapter that is taken stands in the folder, and the others where they are left. -/
theorem Draft.mem_homes_left {id other : String} {v : List String} {children : List Folder} :
    v ∈ ((d.taken path other children).sight id).homes ↔
      (v = [] ∧ id = other) ∨ v ∈ (Folder.mk d.info children).homes id := by
  have hcount : (d.info.chapters ++ [other]).count id ≠ 0 ↔
      id = other ∨ d.info.chapters.count id ≠ 0 := by
    rw [List.count_append]
    by_cases h : id = other
    · simp [h]
    · simp [h, Ne.symm h]
  simp only [Draft.taken, Draft.sight, Draft.shown, Folder.homes, Folder.sites_mk, List.mem_append,
    List.mem_replicate, hcount]
  tauto

/-- A chapter that is taken from a place stands in the folder, and at its other places. -/
theorem Draft.mem_homes_taken {id other : String} {way v : List String} {children : List Folder}
    (hl : Lost other way (.mk d.info d.children) (.mk d.info children)) (hv : v ≠ [])
    (hne : id ≠ other ∨ v ≠ way) :
    v ∈ ((d.taken path other children).sight id).homes ↔ v ∈ (d.sight id).homes := by
  rw [mem_homes_left, or_iff_right fun h => hv h.1, show (d.sight id).homes = _ from d.homes_eq id]
  by_cases hid : id = other
  · subst hid
    rw [hl.homes_perm.mem_iff, List.mem_cons, or_iff_right (hne.resolve_left fun h => h rfl)]
  · rw [hl.homes_other hid]

/-- A key moves a chapter that stands further down only from its address. -/
theorem Draft.mem_homes_key {id : String} {v : List String} (hv : v ≠ [])
    (hne : address v id ≠ key) :
    v ∈ ((d.key path metaName held key o).sight id).homes ↔ v ∈ (d.sight id).homes := by
  have hturn := d.key_turn path metaName held key o
  generalize d.key path metaName held key o = e at hturn
  cases hturn with
  | rest _ => exact Iff.rfl
  | separator _ =>
    rw [show Sight.homes _ = _ from Draft.homes_eq _ id, show (d.sight id).homes = _ from d.homes_eq id]
  | named _ _ =>
    rw [homes_places]
    exact Iff.rfl
  | missed _ _ _ _ => exact Iff.rfl
  | hoisted _ _ hs hl =>
    rw [homes_place]
    refine mem_homes_taken hl hv ?_
    by_contra h
    rw [not_or, not_not, not_not] at h
    exact hne (by rw [h.1, h.2, (address_hoistKey hs).2])
  | unknown _ _ _ _ _ => exact Iff.rfl

/-- The step: a key adds to the list what it lists. -/
theorem Draft.configured_key (ht : (Folder.mk d.info d.children).Tidy)
    (hheld : ∀ name ∈ held.map (·.1), '/' ∉ name.toList) :
    (d.key path metaName held key o).configured =
      d.configured ++ keyed held (fun id => (d.sight id).homes) (key, o) := by
  unfold keyed
  dsimp only
  cases hr : Override.isRest key with
  | true => simp [key_of_rest hr]
  | false =>
    cases hs : Override.separates key o with
    | true => simp [key_of_separator hr hs]
    | false =>
      simp only [Bool.false_eq_true, if_false]
      have ha := Override.applies_of hr hs
      have hturn := d.key_turn path metaName held key o
      generalize d.key path metaName held key o = e at hturn
      cases hturn with
      | rest hn => cases ha.symm.trans hn
      | separator hn => cases ha.symm.trans hn
      | named _ hk =>
        have hslash : '/' ∉ key.toList := hheld key hk
        simp [configured_places, hslash]
      | missed _ _ hk hslash => simp [named_eq_nil.mpr hk, hslash]
      | hoisted _ hk hslash hl =>
        have hhome : (hoistKey key).1 ∈ (d.sight (hoistKey key).2).homes := by
          rw [show Sight.homes _ = _ from d.homes_eq _, hl.homes_perm.mem_iff]
          exact List.mem_cons_self
        rw [configured_place, named_eq_nil.mpr hk]
        simp only [hslash, hhome, and_self, if_true, List.map_nil, List.nil_append]
        rfl
      | unknown _ _ hk hslash hl =>
        have hnot : (hoistKey key).1 ∉ (d.sight (hoistKey key).2).homes := by
          intro hhome
          rw [show Sight.homes _ = _ from d.homes_eq _] at hhome
          obtain ⟨f, hf⟩ := Folder.exists_lost ht hhome
          exact hl f hf
        simp [named_eq_nil.mpr hk, hnot]

/-! ## All keys -/

theorem Draft.keys_cons (e : String × Override) : d.keys path metaName held (e :: entries) =
    (d.key path metaName held e.1 e.2).keys path metaName held entries := rfl

theorem Draft.keys_snoc (e : String × Override) : d.keys path metaName held (entries ++ [e]) =
    (d.keys path metaName held entries).key path metaName held e.1 e.2 := by
  simp [Draft.keys]

/-- What a key lists does not depend on chapters whose address is another key. -/
theorem keyed_congr {homes homes' : String → List (List String)} {e : String × Override}
    (h : ∀ v id, v ≠ [] → address v id = e.1 → (v ∈ homes id ↔ v ∈ homes' id)) :
    keyed held homes e = keyed held homes' e := by
  have hiff : ('/' ∈ e.1.toList ∧ (hoistKey e.1).1 ∈ homes (hoistKey e.1).2) ↔
      ('/' ∈ e.1.toList ∧ (hoistKey e.1).1 ∈ homes' (hoistKey e.1).2) :=
    and_congr_right fun hs => h _ _ (address_hoistKey hs).1 (address_hoistKey hs).2
  unfold keyed
  simp only [hiff]

/-- The run: the keys list in their order, each by where chapters stood before the first one. -/
theorem Draft.configured_keys (hn : (entries.map (·.1)).Nodup)
    (ht : (Folder.mk d.info d.children).Tidy)
    (hheld : ∀ name ∈ held.map (·.1), '/' ∉ name.toList) :
    (d.keys path metaName held entries).configured =
      d.configured ++ entries.flatMap (keyed held fun id => (d.sight id).homes) := by
  induction entries generalizing d with
  | nil => simp [Draft.keys]
  | cons e entries ih =>
    rw [List.map_cons, List.nodup_cons] at hn
    have htidy : (Folder.mk d.info (d.key path metaName held e.1 e.2).children).Tidy :=
      (lasting_tidy d.info).key ht path metaName held e.1 e.2
    have hlater : entries.flatMap (keyed held fun id =>
        ((d.key path metaName held e.1 e.2).sight id).homes) =
          entries.flatMap (keyed held fun id => (d.sight id).homes) := by
      refine List.flatMap_congr fun b hb => keyed_congr fun v id hv hkey => ?_
      have hne : b.1 ≠ e.1 := fun he => hn.1 (he ▸ List.mem_map_of_mem hb)
      exact mem_homes_key hv (hkey.trans_ne hne)
    rw [keys_cons, ih hn.2 (htidy.change_info _), hlater, configured_key ht hheld, List.append_assoc,
      List.flatMap_cons]

/-- The place of the rest is behind what the keys up to the last mark list. -/
theorem Draft.restAt_keys (hn : (entries.map (·.1)).Nodup)
    (ht : (Folder.mk d.info d.children).Tidy)
    (hheld : ∀ name ∈ held.map (·.1), '/' ∉ name.toList) (hc : d.configured = [])
    (hr : d.restAt = none) : (d.keys path metaName held entries).restAt =
      if Override.marksRest entries then
        some ((Override.front entries).flatMap (keyed held fun id => (d.sight id).homes)).length
      else none := by
  induction entries using List.reverseRecOn with
  | nil => exact hr
  | append_singleton entries e ih =>
    rw [List.map_append, List.nodup_append] at hn
    rw [keys_snoc, restAt_key, Override.marksRest_snoc]
    cases he : Override.isRest e.1 with
    | true =>
      have hnothing : keyed held (fun id => (d.sight id).homes) e = [] := by
        unfold keyed
        rw [if_pos he]
      rw [Bool.or_true, if_pos rfl, if_pos rfl, Override.front_snoc_of_rest he,
        configured_keys hn.1 ht hheld, hc, List.nil_append]
      simp [hnothing]
    | false =>
      rw [Bool.or_false, if_neg (by simp), ih hn.1]
      cases hm : Override.marksRest entries with
      | true => rw [if_pos rfl, if_pos rfl, Override.front_snoc he hm]
      | false => rfl

/-- What the keys of a file leave, as it is held. -/
def unkeyed (held : List (String × Item)) (entries : List (String × Override)) : List Item :=
  (held.filter fun h => (Override.about entries h.1).isNone).map (·.2)

/-- The list of a folder: what the keys list, with the sorted rest at its place. -/
theorem Draft.finish_keys (hn : (entries.map (·.1)).Nodup)
    (ht : (Folder.mk d.info d.children).Tidy)
    (hheld : ∀ name ∈ held.map (·.1), '/' ∉ name.toList) (hc : d.configured = [])
    (hu : d.used = []) (hr : d.restAt = none) :
    let e := d.keys path metaName held entries
    let listed := keyed held fun id => (d.sight id).homes
    e.finish held = ((Override.front entries).flatMap listed ++
      sortRest e.children e.work.chapters (unkeyed held entries) ++
      (Override.back entries).flatMap listed).filter (!isDrained e.children ·) := by
  intro e listed
  have hconfigured : e.configured =
      (Override.front entries).flatMap listed ++ (Override.back entries).flatMap listed := by
    rw [configured_keys hn ht hheld, hc, List.nil_append, ← List.flatMap_append,
      Override.front_append_back]
  have hrest : (held.filter fun h => !e.used.contains h.1).map (·.2) = unkeyed held entries := by
    refine congrArg _ (List.filter_congr fun h hh => ?_)
    rw [Bool.eq_iff_iff, Bool.not_eq_true', ← Bool.not_eq_true, List.contains_iff_mem,
      Draft.mem_used_keys, hu, Option.isNone_iff_eq_none, ← Option.not_isSome_iff_eq_none]
    simp [List.mem_map_of_mem hh]
  have hplace : e.configured.take (e.restAt.getD e.configured.length) =
        (Override.front entries).flatMap listed ∧
      e.configured.drop (e.restAt.getD e.configured.length) =
        (Override.back entries).flatMap listed := by
    rw [restAt_keys hn ht hheld hc hr]
    cases hm : Override.marksRest entries with
    | true =>
      rw [if_pos rfl, Option.getD_some, hconfigured]
      exact ⟨List.take_left' rfl, List.drop_left' rfl⟩
    | false =>
      have hback : Override.back entries = [] := by simp [Override.back, hm]
      rw [if_neg (by simp), Option.getD_none, List.take_length, List.drop_length, hconfigured, hback]
      simp
  unfold Draft.finish
  dsimp only
  rw [hrest, hplace.1, hplace.2]

/-! ## The order of the rest -/

/-- Rank, label and priority decide in this order. -/
def RestKey.lexical (k : RestKey) : ℕ ×ₗ List Char ×ₗ ℤ := toLex (k.rank, toLex (k.label, k.priority))

theorem RestKey.le_iff {a b : RestKey} : a.le b = true ↔ a.lexical ≤ b.lexical := by
  unfold RestKey.le RestKey.lexical
  rw [Prod.Lex.toLex_le_toLex, Prod.Lex.toLex_le_toLex]
  by_cases hr : a.rank = b.rank
  · by_cases hl : a.label = b.label
    · simp [hr, hl]
    · simp [hr, hl]
  · simp [hr]

theorem RestKey.eq_of_le {a b : RestKey} (h1 : a.le b = true) (h2 : b.le a = true) : a = b := by
  have h := le_antisymm (le_iff.mp h1) (le_iff.mp h2)
  obtain ⟨r1, l1, p1⟩ := a
  obtain ⟨r2, l2, p2⟩ := b
  simpa [lexical, Prod.ext_iff] using h

section Sorted

variable {children : List Folder} {chapters : List Chapter}

theorem sortRest_perm (items : List Item) : (sortRest children chapters items).Perm items :=
  List.mergeSort_perm _ _

theorem sortRest_sorted (items : List Item) : (sortRest children chapters items).Pairwise
    fun a b => (restKey children chapters a).le (restKey children chapters b) = true := by
  refine List.pairwise_mergeSort (fun a b c h1 h2 => ?_) (fun a b => ?_) items
  · exact RestKey.le_iff.mpr (le_trans (RestKey.le_iff.mp h1) (RestKey.le_iff.mp h2))
  · rw [Bool.or_eq_true, RestKey.le_iff, RestKey.le_iff]
    exact le_total _ _

end Sorted

end Arrange

end Sourcebook
