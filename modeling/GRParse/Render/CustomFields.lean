import GRParse.Lib.SortOn
import GRParse.Render.ReadBack
import Mathlib.Data.Set.Card

/-!
# Custom fields

The custom fields of a node are exported under names of the form `namespace__field_name`.  A key
that is no such name moves under a namespace of its own, and a number tells it apart from a name
that is taken already.
-/

namespace GRParse.Render

open List Function

open JsonWriter (decimal)
open Sorting Utf8

/-- `google::protobuf::Value::KindCase`. -/
inductive KindCase where
  | notSet
  | nullValue
  | numberValue
  | stringValue
  | boolValue
  | structValue
  | listValue
  deriving DecidableEq

variable {Value : Type} (kindCase : Value → KindCase)

/-! ### Names -/

/-- The bytes of a name as numbers, in whose order names are sorted. -/
def byteOrder (name : List UInt8) : List ℕ :=
  name.map UInt8.toNat

/-- Where `__` stands first in a key. -/
def findUnderscores (key : List UInt8) : Option ℕ :=
  key.tails.findIdx? fun rest => rest.take 2 = [0x5f, 0x5f]

def conformingCustomName (key : List UInt8) : Bool :=
  match findUnderscores key with
  | none => false
  | some position => 0 < position && position + 2 < key.length

/-- The text `pipestream__`. -/
def kNamespace : List UInt8 :=
  [0x70, 0x69, 0x70, 0x65, 0x73, 0x74, 0x72, 0x65, 0x61, 0x6d, 0x5f, 0x5f]

def isWord (byte : UInt8) : Bool :=
  (0x30 ≤ byte && byte ≤ 0x39) || (0x41 ≤ byte && byte ≤ 0x5a) || (0x61 ≤ byte && byte ≤ 0x7a) ||
    byte = 0x5f

/-- The name that a key moves to when nothing else has it. -/
def baseName (key : List UInt8) : List UInt8 :=
  kNamespace ++ (key.filter startsChar).map fun byte => if isWord byte then byte else 0x5f

def suffixed (base : List UInt8) (suffix : ℕ) : List UInt8 :=
  base ++ 0x5f :: decimal suffix

theorem decimal_injective :
  Function.Injective decimal
  := by
  intro a b h
  rw [← (decimal_spec a).2.1, ← (decimal_spec b).2.1, h]

theorem suffixed_injective (base : List UInt8) :
  Function.Injective (suffixed base)
  := by
  intro a b h
  obtain ⟨-, h⟩ := cons.inj (append_cancel_left h)
  exact decimal_injective h

/-- Suffixes whose names are taken are finitely many. -/
theorem finite_taken (taken : List (List UInt8)) (base : List UInt8) (suffix : ℕ) :
  { later | suffix ≤ later ∧ suffixed base later ∈ taken }.Finite
  := by
  have hfinite : (Set.preimage (suffixed base) { name | name ∈ taken }).Finite :=
    taken.finite_toSet.preimage (suffixed_injective base).injOn
  exact hfinite.subset fun later h => h.2

/-- The loop of `ordered_custom_fields` over the suffixes. -/
def nextFree (taken : List (List UInt8)) (base : List UInt8) (suffix : ℕ) : List UInt8 :=
  if suffixed base suffix ∈ taken then nextFree taken base (suffix + 1) else suffixed base suffix
termination_by { later | suffix ≤ later ∧ suffixed base later ∈ taken }.ncard
decreasing_by
  apply Set.ncard_lt_ncard _ (finite_taken taken base suffix)
  have hsubset : { later | suffix + 1 ≤ later ∧ suffixed base later ∈ taken } ⊆
      { later | suffix ≤ later ∧ suffixed base later ∈ taken } :=
    fun later h => ⟨(Nat.le_succ suffix).trans h.1, h.2⟩
  rw [Set.ssubset_iff_of_subset hsubset]
  exact ⟨suffix, ⟨le_rfl, ‹_›⟩, fun h => absurd h.1 (Nat.not_succ_le_self suffix)⟩

def freeName (taken : List (List UInt8)) (base : List UInt8) : List UInt8 :=
  if base ∈ taken then nextFree taken base 2 else base

/-! ### The fields -/

/-- Keys that are no names are renamed in turn, and their new names take their places among those
that are taken. -/
def renameFields (taken : List (List UInt8)) :
    List (List UInt8 × Value) → List (List UInt8 × Value)
  | [] => []
  | (key, value) :: entries =>
    if conformingCustomName key then (key, value) :: renameFields taken entries
    else
      let candidate := freeName taken (baseName key)
      (candidate, value) :: renameFields (taken.replace key candidate) entries

def isPresent (value : Value) : Bool :=
  kindCase value ∉ [KindCase.nullValue, KindCase.notSet]

/-- `ordered_custom_fields`. -/
def orderedCustomFields (fields : List (List UInt8 × Value)) : List (List UInt8 × Value) :=
  let entries := sortOn (byteOrder ·.1) fields
  let renamed := renameFields (entries.map Prod.fst) entries
  (sortOn (byteOrder ·.1) renamed).filter (isPresent kindCase ·.2)

/-! ### New names -/

theorem nextFree_spec (taken : List (List UInt8)) (base : List UInt8) (suffix : ℕ) :
  nextFree taken base suffix ∉ taken ∧ ∃ later, nextFree taken base suffix = suffixed base later
  := by
  fun_induction nextFree taken base suffix with
  | case1 suffix h ih => exact ih
  | case2 suffix h => exact ⟨h, suffix, rfl⟩

theorem freeName_spec (taken : List (List UInt8)) (base : List UInt8) :
  freeName taken base ∉ taken ∧
    (freeName taken base = base ∨ ∃ suffix, freeName taken base = suffixed base suffix)
  := by
  rw [freeName]
  split
  case isTrue h =>
    obtain ⟨hfree, hsuffixed⟩ := nextFree_spec taken base 2
    exact ⟨hfree, Or.inr hsuffixed⟩
  case isFalse h => exact ⟨h, Or.inl rfl⟩

theorem findUnderscores_namespace (rest : List UInt8) :
  findUnderscores (kNamespace ++ rest) = some 10
  := by
  simp [findUnderscores, kNamespace, tails, findIdx?_cons]

/-- In the namespace every name conforms that says anything. -/
theorem conforming_namespace {rest : List UInt8} :
  conformingCustomName (kNamespace ++ rest) ↔ rest ≠ []
  := by
  rw [conformingCustomName, findUnderscores_namespace]
  cases rest with
  | nil => decide
  | cons byte rest => simp [kNamespace]

/-- Only a key without a character leaves nothing to be said. -/
theorem baseName_eq_iff {chars : List Char} :
  baseName (encode chars) = kNamespace ↔ encode chars = []
  := by
  rw [baseName, append_right_eq_self, map_eq_nil_iff, ← length_eq_zero_iff,
    ← countP_eq_length_filter, countP_encode, length_eq_zero_iff, encode_eq_nil_iff]

/-- What a key may be renamed to. -/
def Renames (key name : List UInt8) : Prop :=
  if conformingCustomName key then name = key
  else name = baseName key ∨ ∃ suffix, name = suffixed (baseName key) suffix

theorem conforming_suffixed (key : List UInt8) (suffix : ℕ) :
  conformingCustomName (suffixed (baseName key) suffix)
  := by
  rw [suffixed, baseName, append_assoc, conforming_namespace]
  simp

theorem conforming_baseName {key : List UInt8} :
  conformingCustomName (baseName key) ↔ baseName key ≠ kNamespace
  := by
  rw [baseName, conforming_namespace, ne_eq, ne_eq, append_right_eq_self]

/-- A name conforms unless it is the namespace alone. -/
theorem Renames.conforming_iff {key name : List UInt8} (h : Renames key name) :
  conformingCustomName name ↔ name ≠ kNamespace
  := by
  have hnamespace : conformingCustomName kNamespace = false := by decide
  constructor
  · rintro hname rfl
    rw [hnamespace] at hname
    cases hname
  · intro hne
    rw [Renames] at h
    split at h
    case isTrue hkey => rwa [h]
    case isFalse =>
      rcases h with rfl | ⟨suffix, rfl⟩
      · exact conforming_baseName.mpr hne
      · exact conforming_suffixed key suffix

/-! ### The loop -/

theorem replace_append_cons {done rest : List (List UInt8)} {key name : List UInt8}
    (h : key ∉ done) :
  (done ++ key :: rest).replace key name = done ++ name :: rest
  := by
  induction done with
  | nil => simp
  | cons first done ih =>
    rw [mem_cons, not_or] at h
    rw [cons_append, replace_cons, beq_false_of_ne h.1]
    simp only [ih h.2, cons_append]

/-- The result is the entries under names of their keys that differ, also from those given
before. -/
def Given (done : List (List UInt8)) (entries result : List (List UInt8 × Value)) : Prop :=
  ∃ rename : List UInt8 → List UInt8,
    result = entries.map (fun entry => (rename entry.1, entry.2)) ∧
    (done ++ entries.map fun entry => rename entry.1).Nodup ∧
    ∀ entry ∈ entries, Renames entry.1 (rename entry.1)

theorem Given.cons {done : List (List UInt8)} {entries result : List (List UInt8 × Value)}
    {key name : List UInt8} (value : Value) (hkey : key ∉ entries.map Prod.fst)
    (hname : Renames key name) (h : Given (done ++ [name]) entries result) :
  Given done ((key, value) :: entries) ((name, value) :: result)
  := by
  obtain ⟨rename, rfl, hnodup, hrenames⟩ := h
  have hupdate : ∀ entry ∈ entries, update rename key name entry.1 = rename entry.1 := by
    intro entry hentry
    apply update_of_ne
    rintro rfl
    exact hkey (mem_map_of_mem hentry)
  use update rename key name
  refine ⟨?_, ?_, ?_⟩
  · rw [map_cons, update_self]
    congr 1
    apply map_congr_left
    intro entry hentry
    rw [hupdate entry hentry]
  · rw [map_cons, update_self, map_congr_left hupdate]
    simpa using hnodup
  · intro entry hentry
    rcases mem_cons.mp hentry with rfl | hentry
    · rwa [update_self]
    · rw [hupdate entry hentry]
      exact hrenames entry hentry

/-- The names that were given and the keys that are left stay apart. -/
theorem renameFields_given (done : List (List UInt8)) (entries : List (List UInt8 × Value))
    (h : (done ++ entries.map Prod.fst).Nodup) :
  Given done entries (renameFields (done ++ entries.map Prod.fst) entries)
  := by
  induction entries generalizing done with
  | nil => exact ⟨id, rfl, h, by simp⟩
  | cons entry entries ih =>
    obtain ⟨key, value⟩ := entry
    change (done ++ key :: entries.map Prod.fst).Nodup at h
    change Given done _ (renameFields (done ++ key :: entries.map Prod.fst) _)
    obtain ⟨-, hrest, hdisjoint⟩ := nodup_append.mp h
    have hkey : key ∉ entries.map Prod.fst := (nodup_cons.mp hrest).1
    have hdone : key ∉ done := fun hmem => hdisjoint key hmem key mem_cons_self rfl
    have hnext : ∀ name, (done ++ name :: entries.map Prod.fst).Nodup →
        Given (done ++ [name]) entries
          (renameFields (done ++ name :: entries.map Prod.fst) entries) := by
      intro name hnodup
      simpa using ih (done ++ [name]) (by simpa using hnodup)
    by_cases hconforming : conformingCustomName key
    · rw [renameFields, if_pos hconforming]
      apply Given.cons value hkey _ (hnext key h)
      rw [Renames, if_pos hconforming]
    · obtain ⟨hfree, hname⟩ := freeName_spec (done ++ key :: entries.map Prod.fst) (baseName key)
      rw [renameFields, if_neg hconforming]
      simp only [replace_append_cons hdone]
      apply Given.cons value hkey
      · rwa [Renames, if_neg hconforming]
      · apply hnext
        rw [nodup_middle] at h ⊢
        apply nodup_cons.mpr ⟨_, (nodup_cons.mp h).2⟩
        intro hmem
        apply hfree
        rw [mem_append] at hmem ⊢
        exact hmem.imp_right (mem_cons_of_mem _)

/-! ### The result -/

/-- A map field: its keys differ, and they are UTF-8. -/
structure CustomFields (Value : Type) where
  /-- The entries, in the order in which the map is iterated over. -/
  entries : List (List UInt8 × Value)
  distinct : (entries.map Prod.fst).Nodup
  utf8 : ∀ entry ∈ entries, ∃ chars, entry.1 = encode chars

/-- Each entry that has a value has one name, which is its key if that conforms, the names are in
the order of their bytes without repetition, and they conform. -/
structure Named (fields result : List (List UInt8 × Value)) : Prop where
  named : ∃ rename : List UInt8 → List UInt8,
    result.Perm ((fields.filter (isPresent kindCase ·.2)).map fun entry =>
      (rename entry.1, entry.2)) ∧
    ∀ entry ∈ fields, conformingCustomName entry.1 → rename entry.1 = entry.1
  increasing : result.Pairwise fun entry entry' => byteOrder entry.1 < byteOrder entry'.1
  conforming : ∀ entry ∈ result, conformingCustomName entry.1

theorem byteOrder_injective :
  Function.Injective byteOrder
  := map_injective_iff.mpr fun _ _ => UInt8.toNat_inj.mp

variable {fields : List (List UInt8 × Value)}

theorem nodup_sorted (h : (fields.map Prod.fst).Nodup) :
  ((sortOn (byteOrder ·.1) fields).map Prod.fst).Nodup
  := (((sortOn_perm (byteOrder ·.1) fields).map Prod.fst).nodup_iff).mpr h

/-- The order in which the map is iterated over does not show in the result. -/
theorem orderedCustomFields_congr {other : List (List UInt8 × Value)}
    (h : (fields.map Prod.fst).Nodup) (hperm : other.Perm fields) :
  orderedCustomFields kindCase other = orderedCustomFields kindCase fields
  := by
  have hsort : sortOn (byteOrder ·.1) fields = sortOn (byteOrder ·.1) other := by
    apply sortOn_congr_perm hperm.symm
    intro entry hentry entry' hentry' heq
    exact inj_on_of_nodup_map h hentry hentry' (byteOrder_injective heq)
  rw [orderedCustomFields, orderedCustomFields, hsort]

/-- The name of a key without a character, which is the first that is given. -/
theorem rename_nil {rename : List UInt8 → List UInt8}
    (h : renameFields ((sortOn (byteOrder ·.1) fields).map Prod.fst)
      (sortOn (byteOrder ·.1) fields) =
        (sortOn (byteOrder ·.1) fields).map fun entry => (rename entry.1, entry.2))
    (hmem : [] ∈ fields.map Prod.fst) :
  rename [] = freeName ((sortOn (byteOrder ·.1) fields).map Prod.fst) kNamespace
  := by
  have hperm := sortOn_perm (byteOrder ·.1) fields
  have hsorted := pairwise_sortOn (byteOrder ·.1) fields
  rw [← (hperm.map Prod.fst).mem_iff] at hmem
  generalize sortOn (byteOrder ·.1) fields = entries at h hmem hsorted
  cases entries with
  | nil => cases hmem
  | cons entry entries =>
    obtain ⟨key, value⟩ := entry
    have hkey : key = [] := by
      rcases mem_cons.mp hmem with heq | hmem
      · exact heq.symm
      · obtain ⟨entry, hentry, hnil⟩ := mem_map.mp hmem
        have hle := (pairwise_cons.mp hsorted).1 entry hentry
        rw [hnil] at hle
        apply byteOrder_injective
        exact le_antisymm hle (not_lt.mp (not_lt_nil _))
    subst hkey
    have hnot : conformingCustomName [] = false := rfl
    rw [renameFields, hnot] at h
    exact (congrArg Prod.fst (cons.inj h).1).symm

theorem freeName_eq_self_iff {taken : List (List UInt8)} {base : List UInt8} :
  freeName taken base = base ↔ base ∉ taken
  := by
  constructor
  · intro h
    have hfree := (freeName_spec taken base).1
    rwa [h] at hfree
  · intro h
    exact if_neg h

/-- Only a key without a character can be left with the namespace alone. -/
theorem Renames.eq_nil {chars : List Char} (h : Renames (encode chars) kNamespace) :
  encode chars = []
  := by
  have hnot : conformingCustomName kNamespace = false := by decide
  rw [Renames] at h
  split at h
  case isTrue hkey =>
    rw [← h, hnot] at hkey
    cases hkey
  case isFalse =>
    rcases h with h | ⟨suffix, h⟩
    · exact baseName_eq_iff.mp h.symm
    · have hsuffixed := conforming_suffixed (encode chars) suffix
      rw [← h, hnot] at hsuffixed
      cases hsuffixed

/-- What is true of the result whatever the keys are. -/
theorem exists_rename (h : (fields.map Prod.fst).Nodup) :
  ∃ rename : List UInt8 → List UInt8,
    (orderedCustomFields kindCase fields).Perm
      ((fields.filter (isPresent kindCase ·.2)).map fun entry => (rename entry.1, entry.2)) ∧
    (orderedCustomFields kindCase fields).Pairwise
      (fun entry entry' => byteOrder entry.1 < byteOrder entry'.1) ∧
    (∀ entry ∈ fields, Renames entry.1 (rename entry.1)) ∧
    ([] ∈ fields.map Prod.fst → (rename [] = kNamespace ↔ kNamespace ∉ fields.map Prod.fst))
  := by
  obtain ⟨rename, heq, hnodup, hrenames⟩ := renameFields_given [] _ (nodup_sorted h)
  have hperm := sortOn_perm (byteOrder ·.1) fields
  rw [nil_append] at heq hnodup
  use rename
  refine ⟨?_, ?_, ?_, ?_⟩
  · rw [orderedCustomFields]
    simp only [heq]
    refine ((sortOn_perm _ _).filter _).trans ?_
    rw [filter_map]
    exact (hperm.filter _).map _
  · rw [orderedCustomFields]
    simp only [heq]
    apply List.Pairwise.filter
    have hnames : (((sortOn (byteOrder ·.1) fields).map fun entry =>
        (rename entry.1, entry.2)).map Prod.fst).Nodup := by
      rwa [map_map]
    have hkeys := nodup_sorted hnames
    apply (pairwise_sortOn _ _).imp₂ _ (pairwise_map.mp hkeys)
    intro entry entry' hle hne
    exact lt_of_le_of_ne hle fun heq => hne (byteOrder_injective heq)
  · intro entry hentry
    exact hrenames entry (hperm.mem_iff.mpr hentry)
  · intro hnil
    rw [rename_nil heq hnil, freeName_eq_self_iff, (hperm.map Prod.fst).mem_iff]

/-- Fields are named as they should be, in whatever order they come, unless a key without a
character has a value and `pipestream__` is no key. -/
theorem orderedCustomFields_iff (fields : CustomFields Value) :
  (Named kindCase fields.entries (orderedCustomFields kindCase fields.entries) ∧
      ∀ other, other.Perm fields.entries →
        orderedCustomFields kindCase other = orderedCustomFields kindCase fields.entries) ↔
    ((∃ value, ([], value) ∈ fields.entries ∧ isPresent kindCase value) →
      kNamespace ∈ fields.entries.map Prod.fst)
  := by
  obtain ⟨rename, hperm, hincreasing, hrenames, hnil⟩ := exists_rename kindCase fields.distinct
  have hnot : conformingCustomName kNamespace = false := by decide
  constructor
  · rintro ⟨hnamed, -⟩ ⟨value, hmem, hpresent⟩
    by_contra hno
    have hname : rename [] = kNamespace := (hnil (List.mem_map_of_mem hmem)).mpr hno
    have hresult : (rename [], value) ∈ orderedCustomFields kindCase fields.entries := by
      rw [hperm.mem_iff]
      exact List.mem_map_of_mem (f := fun entry : List UInt8 × Value => (rename entry.1, entry.2))
        (List.mem_filter.mpr ⟨hmem, hpresent⟩)
    have hconforming := hnamed.conforming _ hresult
    rw [hname, hnot] at hconforming
    cases hconforming
  · intro hkeys
    refine ⟨⟨⟨rename, hperm, ?_⟩, hincreasing, ?_⟩, fun other =>
      orderedCustomFields_congr kindCase fields.distinct⟩
    · intro entry hentry hconforming
      have hname := hrenames entry hentry
      rwa [Renames, if_pos hconforming] at hname
    · intro entry hentry
      rw [hperm.mem_iff, List.mem_map] at hentry
      obtain ⟨entry, hentry, rfl⟩ := hentry
      obtain ⟨hentry, hpresent⟩ := List.mem_filter.mp hentry
      have hname := hrenames entry hentry
      rw [hname.conforming_iff]
      intro heq
      obtain ⟨chars, hchars⟩ := fields.utf8 entry hentry
      rw [heq, hchars] at hname
      have hempty : entry.1 = [] := hchars.trans hname.eq_nil
      obtain ⟨key, value⟩ := entry
      change key = [] at hempty
      subst hempty
      exact (hnil (List.mem_map_of_mem hentry)).mp heq (hkeys ⟨value, hentry, hpresent⟩)

/-- A key without a character is exported under the namespace alone. -/
theorem orderedCustomFields_empty :
  ¬ Named id [([], KindCase.stringValue)] (orderedCustomFields id [([], KindCase.stringValue)])
  := by
  have hresult : orderedCustomFields id [([], KindCase.stringValue)] =
      [(kNamespace, KindCase.stringValue)] := by decide
  intro h
  have hconforming := h.conforming (kNamespace, KindCase.stringValue) (by simp [hresult])
  have hnot : conformingCustomName kNamespace = false := by decide
  rw [hnot] at hconforming
  cases hconforming

end GRParse.Render
