import GRParse.Document.References
import Mathlib.Data.Finset.Sort
import Mathlib.Data.String.Basic

/-!
# The log of renamings

A `ReferenceRenameLog` composes the renumberings of a document into one map, from each
reference as it stood when the log opened to the reference it is renamed to.  It keeps the
references that changed only.  After a merge the item that stayed and the items merged into
it bear one name, and the log tells them apart by whether they changed: a step that renames
the name moves on those that were merged, and forgets the one that stayed.
-/

namespace GRParse

open Containers List

/-- The entries of a renaming in the order of the references. -/
def RefMap.entries (step : RefMap) : List (String × String) :=
  (step.keys.sort (· ≤ ·)).map fun ref => (ref, step.rename ref)

variable {ref : String}

theorem RefMap.rename_of_notMem {step : RefMap} (h : ref ∉ step) :
  step.rename ref = ref
  := by
  rw [rename, Finmap.lookup_eq_none.mpr h, Option.getD_none]

/-- The log: the current name of every original that changed. -/
structure ReferenceRenameLog where
  currentOf : RefMap := ∅
  changed : ∀ original name, currentOf.lookup original = some name → name ≠ original := by simp

namespace ReferenceRenameLog

/-- The originals that an earlier step brought to a name. -/
def holders (log : ReferenceRenameLog) (name : String) : Finset String :=
  log.currentOf.keys.filter fun original => log.currentOf.lookup original = some name

/-- What an entry of a step does: the holders of its name move on, and where there are none
the name is an original that nobody renamed yet, unless an earlier step moved it away. -/
def recordEntry (log : ReferenceRenameLog) (next : RefMap) (entry : String × String) : RefMap :=
  let held := log.holders entry.1
  if held.Nonempty then next.putAll (.collect held fun _ => some entry.2)
  else if entry.1 ∈ log.currentOf then next
  else next.insert entry.1 entry.2

/-- The map without the entries that lead from a reference to itself. -/
def eraseUnchanged (next : RefMap) : RefMap :=
  .collect next.keys fun original => (next.lookup original).filter fun name => name ≠ original

/-- `record`. -/
def record (log : ReferenceRenameLog) (step : RefMap) : ReferenceRenameLog where
  currentOf := eraseUnchanged (step.entries.foldl log.recordEntry log.currentOf)
  changed := by
    intro original name h
    rw [eraseUnchanged, Map.lookup_collect] at h
    split at h
    · simpa using (Option.filter_eq_some_iff.mp h).2
    · cases h

/-- The log of the given steps. -/
def ofSteps (steps : List RefMap) : ReferenceRenameLog :=
  steps.foldl record {}

/-- `renames`. -/
def renames (log : ReferenceRenameLog) : RefMap :=
  log.currentOf

/-! ### One step -/

variable (log : ReferenceRenameLog) (step : RefMap)

/-- The name a log takes a reference to. -/
def nameOf (ref : String) : String :=
  log.renames.rename ref

/-- A step may move a reference: it changed, or no other bears its name. -/
def Movable (ref : String) : Prop :=
  log.nameOf ref ≠ ref ∨ ∀ other ≠ ref, log.nameOf other ≠ ref

theorem nameOf_of_lookup {ref name : String} (h : log.currentOf.lookup ref = some name) :
  log.nameOf ref = name
  := by
  rw [nameOf, renames, RefMap.rename, h, Option.getD_some]

theorem nameOf_of_notMem (h : ref ∉ log.currentOf) :
  log.nameOf ref = ref
  := RefMap.rename_of_notMem h

theorem lookup_eq_of_mem (h : ref ∈ log.currentOf) :
  log.currentOf.lookup ref = some (log.nameOf ref)
  := by
  obtain ⟨name, hname⟩ := Finmap.mem_iff.mp h
  rw [hname, log.nameOf_of_lookup hname]

/-- The log holds what changed. -/
theorem mem_iff_changed (ref : String) :
  ref ∈ log.currentOf ↔ log.nameOf ref ≠ ref
  := by
  constructor
  · intro h
    exact log.changed ref _ (log.lookup_eq_of_mem h)
  · intro h
    by_contra hmem
    exact h (log.nameOf_of_notMem hmem)

/-- The holders of a name are the references it was changed to. -/
theorem mem_holders (ref name : String) :
  ref ∈ log.holders name ↔ log.nameOf ref ≠ ref ∧ log.nameOf ref = name
  := by
  rw [holders, Finset.mem_filter, Finmap.mem_keys, mem_iff_changed, and_congr_right_iff]
  intro h
  rw [log.lookup_eq_of_mem ((log.mem_iff_changed ref).mpr h), Option.some_inj]

open Classical in
/-- An entry moves the references that bear its name and may move. -/
theorem lookup_recordEntry (next : RefMap) (entry : String × String) (ref : String) :
  (log.recordEntry next entry).lookup ref =
    if log.nameOf ref = entry.1 ∧ log.Movable ref then some entry.2 else next.lookup ref
  := by
  unfold recordEntry
  dsimp only
  split
  next held =>
    rw [Map.lookup_putAll, Map.lookup_collect]
    by_cases hmem : ref ∈ log.holders entry.1
    · obtain ⟨hchanged, hname⟩ := (log.mem_holders ref entry.1).mp hmem
      simp [hmem, hname, Movable, hname ▸ hchanged]
    · rw [if_neg hmem, Option.none_or, if_neg]
      rintro ⟨hname, hchanged | halone⟩
      · exact hmem ((log.mem_holders ref entry.1).mpr ⟨hchanged, hname⟩)
      · obtain ⟨other, hother⟩ := held
        obtain ⟨hmoved, hheld⟩ := (log.mem_holders other entry.1).mp hother
        by_cases hsame : log.nameOf ref = ref
        · apply halone other
          · rintro rfl
            exact hmoved hsame
          · rw [hheld, ← hname, hsame]
        · exact hmem ((log.mem_holders ref entry.1).mpr ⟨hsame, hname⟩)
  next hnone =>
    have unheld : ∀ other, log.nameOf other = entry.1 → log.nameOf other = other := by
      intro other hother
      by_contra hchanged
      exact hnone ⟨other, (log.mem_holders other entry.1).mpr ⟨hchanged, hother⟩⟩
    split
    next hmem =>
      rw [if_neg]
      rintro ⟨hname, -⟩
      apply (log.mem_iff_changed entry.1).mp hmem
      rw [← hname, unheld ref hname, unheld ref hname]
    next hmem =>
      have hentry : log.nameOf entry.1 = entry.1 := log.nameOf_of_notMem hmem
      by_cases href : ref = entry.1
      · subst href
        rw [Finmap.lookup_insert, if_pos]
        refine ⟨hentry, Or.inr fun other hother hname => hother ?_⟩
        rw [← unheld other hname, hname]
      · rw [Finmap.lookup_insert_of_ne _ href, if_neg]
        rintro ⟨hname, -⟩
        exact href ((unheld ref hname).symm.trans hname)

open Classical in
/-- Entries that take each reference where the step takes it move all that may move. -/
theorem lookup_foldl_recordEntry (refs : List String) (next : RefMap) (ref : String) :
  ((refs.map fun other => (other, step.rename other)).foldl log.recordEntry next).lookup ref =
    if log.nameOf ref ∈ refs ∧ log.Movable ref then some (step.rename (log.nameOf ref))
    else next.lookup ref
  := by
  induction refs generalizing next with
  | nil => simp
  | cons other refs ih =>
    rw [map_cons, foldl_cons, ih, lookup_recordEntry]
    by_cases hmovable : log.Movable ref
    · by_cases hmem : log.nameOf ref ∈ refs
      · simp [hmovable, hmem]
      · by_cases hother : log.nameOf ref = other
        · simp [hmovable, hother]
        · simp [hmovable, hmem, hother]
    · simp [hmovable]

theorem rename_eraseUnchanged (next : RefMap) (ref : String) :
  (eraseUnchanged next).rename ref = next.rename ref
  := by
  rw [RefMap.rename, eraseUnchanged, Map.lookup_collect]
  by_cases hmem : ref ∈ next
  · obtain ⟨name, hname⟩ := Finmap.mem_iff.mp hmem
    rw [if_pos (Finmap.mem_keys.mpr hmem), RefMap.rename, hname]
    by_cases hsame : name = ref <;> simp [Option.filter, hsame]
  · rw [if_neg (mt Finmap.mem_keys.mp hmem), RefMap.rename_of_notMem hmem, Option.getD_none]

/-- A step takes the name of a reference that may move where the renaming takes it. -/
theorem nameOf_record_of_movable (h : log.Movable ref) :
  (log.record step).nameOf ref = step.rename (log.nameOf ref)
  := by
  have hlookup := log.lookup_foldl_recordEntry step (step.keys.sort (· ≤ ·)) log.currentOf ref
  simp only [Finset.mem_sort, Finmap.mem_keys, h, and_true] at hlookup
  calc (log.record step).nameOf ref
    _ = ((step.entries.foldl log.recordEntry log.currentOf).lookup ref).getD ref :=
      rename_eraseUnchanged ..
    _ = step.rename (log.nameOf ref) := by
      rw [RefMap.entries, hlookup]
      split
      next => rfl
      next hmem => exact (RefMap.rename_of_notMem hmem).symm

/-- A reference that may not move keeps its name. -/
theorem nameOf_record_of_not_movable (h : ¬ log.Movable ref) :
  (log.record step).nameOf ref = ref
  := by
  have hlookup := log.lookup_foldl_recordEntry step (step.keys.sort (· ≤ ·)) log.currentOf ref
  simp only [h, and_false, if_false] at hlookup
  calc (log.record step).nameOf ref
    _ = ((step.entries.foldl log.recordEntry log.currentOf).lookup ref).getD ref :=
      rename_eraseUnchanged ..
    _ = log.nameOf ref := by
      rw [RefMap.entries, hlookup]
      rfl
    _ = ref := not_not.mp fun hchanged => h (.inl hchanged)

/-! ### Steps one after the other -/

/-- The steps applied to a reference one after the other. -/
def renameAll (steps : List RefMap) (ref : String) : String :=
  steps.foldl (fun name step => step.rename name) ref

theorem renameAll_append_singleton (steps : List RefMap) (ref : String) :
  renameAll (steps ++ [step]) ref = step.rename (renameAll steps ref)
  := by
  rw [renameAll, foldl_append]
  rfl

theorem ofSteps_append_singleton (steps : List RefMap) :
  ofSteps (steps ++ [step]) = (ofSteps steps).record step
  := by
  rw [ofSteps, foldl_append]
  rfl

/-- Each step renames names that items bear by then. -/
def Renumbers (items : Set String) (steps : List RefMap) : Prop :=
  ∀ before step, before ++ [step] <+: steps →
    ∀ ref ∈ step, ∃ item ∈ items, renameAll before item = ref

/-- After each step the log takes every item where the steps so far take it. -/
def Composes (items : Set String) (steps : List RefMap) : Prop :=
  ∀ before, before <+: steps →
    ∀ item ∈ items, (ofSteps before).renames.rename item = renameAll before item

/-- The steps so far brought another item to the name that an item still bears. -/
def Shared (items : Set String) (before : List RefMap) (item : String) : Prop :=
  renameAll before item = item ∧ ∃ other ∈ items, other ≠ item ∧ renameAll before other = item

/-- No step renames an item that shares the name it still bears. -/
def NoneShared (items : Set String) (steps : List RefMap) : Prop :=
  ∀ before step, before ++ [step] <+: steps →
    ∀ item ∈ items, Shared items before item → step.rename item = item

variable {items : Set String}

theorem nameOf_ofSteps_nil (ref : String) :
  (ofSteps []).nameOf ref = ref
  := nameOf_of_notMem _ (Finmap.notMem_empty)

variable {before : List RefMap}

/-- A log that composes the steps so far moves the items that share no name. -/
theorem movable_iff (hbefore : Composes items before)
    (hitems : ∀ ref, (ofSteps before).nameOf ref ≠ ref → ref ∈ items) {item : String}
    (hitem : item ∈ items) :
  (ofSteps before).Movable item ↔ ¬ Shared items before item
  := by
  have hname : ∀ ref ∈ items, (ofSteps before).nameOf ref = renameAll before ref :=
    hbefore before prefix_rfl
  constructor
  · rintro (hchanged | halone) ⟨hsame, other, hother, hne, hshared⟩
    · exact hchanged ((hname item hitem).trans hsame)
    · exact halone other hne ((hname other hother).trans hshared)
  · intro hnot
    by_contra hmovable
    rw [Movable, not_or] at hmovable
    obtain ⟨hsame, hheld⟩ := hmovable
    push Not at hsame hheld
    obtain ⟨other, hne, hother⟩ := hheld
    have hmem : other ∈ items := hitems other (by rw [hother]; exact hne.symm)
    refine hnot ⟨?_, other, hmem, hne, ?_⟩
    · rw [← hname item hitem, hsame]
    · rw [← hname other hmem, hother]

/-- Only items ever change in the log. -/
theorem mem_items_of_changed {steps : List RefMap} (hsteps : Renumbers items steps)
    (hcomposes : Composes items steps) (hbefore : before <+: steps)
    (href : (ofSteps before).nameOf ref ≠ ref) :
  ref ∈ items
  := by
  induction before using reverseRecOn generalizing ref with
  | nil => exact absurd (nameOf_ofSteps_nil ref) href
  | append_singleton before step ih =>
    have hstart : before <+: steps := (prefix_append before [step]).trans hbefore
    rw [ofSteps_append_singleton] at href
    have hmovable : (ofSteps before).Movable ref := by
      by_contra hnot
      exact href (nameOf_record_of_not_movable _ step hnot)
    rw [nameOf_record_of_movable _ step hmovable] at href
    obtain hchanged | halone := hmovable
    · exact ih hstart hchanged
    · by_cases hsame : (ofSteps before).nameOf ref = ref
      · rw [hsame] at href
        have hmem : ref ∈ step := by
          by_contra hnot
          exact href (RefMap.rename_of_notMem hnot)
        obtain ⟨item, hitem, hname⟩ := hsteps before step hbefore ref hmem
        by_contra hnot
        refine halone item ?_ ((hcomposes before hstart item hitem).trans hname)
        rintro rfl
        exact hnot hitem
      · exact ih hstart hsame

theorem Composes.of_prefix {before steps : List RefMap} (h : Composes items steps)
    (hbefore : before <+: steps) :
  Composes items before
  := fun _ hstart => h _ (hstart.trans hbefore)

theorem Renumbers.of_prefix {before steps : List RefMap} (h : Renumbers items steps)
    (hbefore : before <+: steps) :
  Renumbers items before
  := fun _ _ hstart => h _ _ (hstart.trans hbefore)

/-- One step more is composed as long as it renames no item that shares its name. -/
theorem composes_append_singleton_iff {step : RefMap} (hsteps : Renumbers items before)
    (hbefore : Composes items before) :
  Composes items (before ++ [step]) ↔
    ∀ item ∈ items, Shared items before item → step.rename item = item
  := by
  have hmovable := fun item (hitem : item ∈ items) =>
    movable_iff hbefore (fun ref => mem_items_of_changed hsteps hbefore prefix_rfl) hitem
  have hname : ∀ item ∈ items, (ofSteps before).nameOf item = renameAll before item :=
    hbefore before prefix_rfl
  constructor
  · intro h item hitem hshared
    have hkept := nameOf_record_of_not_movable (ofSteps before) step
      (mt (hmovable item hitem).mp (not_not.mpr hshared))
    have hnext : (ofSteps (before ++ [step])).nameOf item = renameAll (before ++ [step]) item :=
      h _ prefix_rfl item hitem
    rw [ofSteps_append_singleton, renameAll_append_singleton, hkept, hshared.1] at hnext
    exact hnext.symm
  · intro h prior hprior item hitem
    obtain rfl | hprior := prefix_concat_iff.mp hprior
    · change (ofSteps (before ++ [step])).nameOf item = renameAll (before ++ [step]) item
      rw [ofSteps_append_singleton, renameAll_append_singleton, ← hname item hitem]
      by_cases hshared : Shared items before item
      · rw [nameOf_record_of_not_movable _ step
          (mt (hmovable item hitem).mp (not_not.mpr hshared)), hname item hitem, hshared.1]
        exact (h item hitem hshared).symm
      · exact nameOf_record_of_movable _ step ((hmovable item hitem).mpr hshared)
    · exact hbefore prior hprior item hitem

/-- The references of a document of three text items. -/
def threeTexts : Set String :=
  {"#/texts/0", "#/texts/1", "#/texts/2"}

/-- The second text is retired into the first, and the third one moves up. -/
def retireSecond : RefMap :=
  (Finmap.singleton "#/texts/1" "#/texts/0").insert "#/texts/2" "#/texts/1"

/-- Of the two texts that are left the second one is retired into the first. -/
def retireLast : RefMap :=
  Finmap.singleton "#/texts/1" "#/texts/0"

/-- The third text is retired into the second. -/
def retireThird : RefMap :=
  Finmap.singleton "#/texts/2" "#/texts/1"

/-- Of the two texts that are left the first one is retired into the second, which moves up. -/
def retireFirst : RefMap :=
  (Finmap.singleton "#/texts/1" "#/texts/0").insert "#/texts/0" "#/texts/0"

theorem append_singleton_prefix_pair {step first second : RefMap}
    (h : before ++ [step] <+: [first, second]) :
  before = [] ∧ step = first ∨ before = [first] ∧ step = second
  := by
  obtain ⟨after, hafter⟩ := h
  rcases before with _ | ⟨head, _ | ⟨next, before⟩⟩
  · exact .inl ⟨rfl, (cons.inj hafter).1⟩
  · obtain ⟨rfl, htail⟩ := cons.inj hafter
    exact .inr ⟨rfl, (cons.inj htail).1⟩
  · simp at hafter

end ReferenceRenameLog

end GRParse
