import GRParse.Chunking.Walk

/-!
# One item, one chunk

The walk puts an item into one chunk only, with one exception: a text that a flattened list
took is taken once more by a table, picture or code block that names it as its caption or
footnote and comes later.
-/

namespace GRParse.Chunking

open List

variable {Data Budget : Type} (document : Document Data) (options : ChunkOptions Data Budget)

/-- The references in some chunks, with repetitions. -/
def items (chunks : List WorkChunk) : List String :=
  chunks.flatMap (·.docItems)

/-- No text, table or picture is in two chunks, or twice in one. -/
def Once (chunks : List WorkChunk) : Prop :=
  ∀ ref, (textAt document ref).isSome ∨ (tableAt document ref).isSome ∨
    (pictureAt document ref).isSome → (items chunks).count ref ≤ 1

/-! ### Captions -/

/-- The captions that a floating item takes: texts that no floating item has claimed. -/
def newCaptions : Finset String → List String → List String
  | _, [] => []
  | claimed, ref :: refs =>
    if (textAt document ref).isSome ∧ ref ∉ claimed then
      ref :: newCaptions (insert ref claimed) refs
    else newCaptions claimed refs

variable {ref : String}

theorem newCaptions_subset {claimed : Finset String} {refs : List String}
    (h : ref ∈ newCaptions document claimed refs) :
  ref ∈ refs ∧ (textAt document ref).isSome ∧ ref ∉ claimed
  := by
  induction refs generalizing claimed with
  | nil => cases h
  | cons first refs ih =>
    rw [newCaptions] at h
    split at h
    next hfirst =>
      obtain rfl | h := mem_cons.mp h
      · exact ⟨mem_cons_self, hfirst⟩
      · obtain ⟨hmem, htext, hclaimed⟩ := ih h
        exact ⟨mem_cons_of_mem _ hmem, htext, fun hin =>
          hclaimed (Finset.mem_insert_of_mem hin)⟩
    next =>
      obtain ⟨hmem, hrest⟩ := ih h
      exact ⟨mem_cons_of_mem _ hmem, hrest⟩

theorem nodup_newCaptions (claimed : Finset String) (refs : List String) :
  (newCaptions document claimed refs).Nodup
  := by
  induction refs generalizing claimed with
  | nil => exact nodup_nil
  | cons first refs ih =>
    rw [newCaptions]
    split
    · refine nodup_cons.mpr ⟨fun h => ?_, ih _⟩
      exact (newCaptions_subset document h).2.2 (Finset.mem_insert_self _ _)
    · exact ih claimed

theorem newCaptions_append (claimed : Finset String) (refs refs' : List String) :
  newCaptions document claimed (refs ++ refs') =
    newCaptions document claimed refs ++
      newCaptions document (claimed ∪ (newCaptions document claimed refs).toFinset) refs'
  := by
  induction refs generalizing claimed with
  | nil => simp [newCaptions]
  | cons first refs ih =>
    rw [cons_append, newCaptions, newCaptions]
    split
    · rw [ih, toFinset_cons, cons_append, Finset.union_insert, Finset.insert_union]
    · rw [ih]

@[simp]
theorem docItems_absorbItem (chunk : WorkChunk) (ref : String) :
  (absorbItem document options chunk ref).docItems = chunk.docItems ++ [ref]
  := by
  unfold absorbItem absorbOffsets
  split
  · rfl
  · dsimp only
    split
    · split <;> rfl
    · rfl

/-- A floating item has claimed captions: they are in its chunk, and visited. -/
structure Claims (before after : Walker Budget × WorkChunk) (captions : List String) : Prop where
  chunks : after.1.chunks = before.1.chunks
  visited : after.1.visited =
    before.1.visited ∪ (newCaptions document before.1.claimed captions).toFinset
  claimed : after.1.claimed =
    before.1.claimed ∪ (newCaptions document before.1.claimed captions).toFinset
  docItems : after.2.docItems =
    before.2.docItems ++ newCaptions document before.1.claimed captions

theorem Claims.append {first second third : Walker Budget × WorkChunk}
    {captions footnotes : List String} (h : Claims document first second captions)
    (h' : Claims document second third footnotes) :
  Claims document first third (captions ++ footnotes)
  := by
  have happend := newCaptions_append document first.1.claimed captions footnotes
  rw [← h.claimed] at happend
  constructor
  · exact h'.chunks.trans h.chunks
  · rw [h'.visited, h.visited, happend, toFinset_append, Finset.union_assoc]
  · rw [h'.claimed, happend, toFinset_append, ← Finset.union_assoc, ← h.claimed]
  · rw [h'.docItems, h.docItems, happend, append_assoc]

theorem claims_captionText (s : Walker Budget × WorkChunk × List (List UInt8)) (ref : String) :
  Claims document (s.1, s.2.1)
    ((captionText document options s ref).1, (captionText document options s ref).2.1) [ref]
  := by
  cases htext : textAt document ref with
  | none => constructor <;> simp [captionText, newCaptions, htext]
  | some text =>
    by_cases hclaimed : ref ∈ s.1.claimed
    · constructor <;> simp [captionText, newCaptions, htext, hclaimed]
    · constructor <;>
        simp [captionText, newCaptions, htext, hclaimed, Walker.visit, Finset.union_singleton]

variable (walker : Walker Budget)

theorem claims_captionTexts (chunk : WorkChunk) (captions : List String) :
  Claims document (walker, chunk) ((captionTexts document options walker chunk captions).1,
    (captionTexts document options walker chunk captions).2.1) captions
  := by
  induction captions using reverseRecOn with
  | nil => constructor <;> simp [captionTexts, newCaptions]
  | append_singleton captions ref ih =>
    rw [captionTexts, foldl_append]
    exact ih.append document (claims_captionText document options _ ref)

/-- The chunk of a table, picture or code block holds the item and the captions it takes. -/
def Floats (walker : Walker Budget) (ref : String) (captions : List String)
    (result : Walker Budget × WorkChunk) : Prop :=
  ∃ chunk : WorkChunk, chunk.docItems = [ref] ∧
    Claims document (walker.visit ref, chunk) result captions

theorem floats_tableChunk (ref : String) (table : TableItem Data) :
  Floats document walker ref (table.captions ++ table.footnotes)
    (tableChunk document options walker ref table)
  := by
  refine ⟨absorbItem document options { headings := trailTexts (walker.visit ref) } ref,
    by simp, ?_⟩
  have hcaptions := claims_captionTexts document options (walker.visit ref)
    (absorbItem document options { headings := trailTexts (walker.visit ref) } ref)
    table.captions
  set result := captionTexts document options (walker.visit ref)
    (absorbItem document options { headings := trailTexts (walker.visit ref) } ref)
    table.captions
  have hfootnotes := claims_captionTexts document options
    { result.1 with gridBudget := (options.serializeTable table.data result.1.gridBudget).2 }
    { result.2.1 with captions := result.2.2 } table.footnotes
  have happend := hcaptions.append document ⟨hfootnotes.chunks, hfootnotes.visited,
    hfootnotes.claimed, hfootnotes.docItems⟩
  exact ⟨happend.chunks, happend.visited, happend.claimed, happend.docItems⟩

theorem floats_pictureChunk (ref : String) (picture : PictureItem) :
  Floats document walker ref (picture.captions ++ picture.footnotes)
    (pictureChunk document options walker ref picture)
  := by
  refine ⟨absorbItem document options { headings := trailTexts (walker.visit ref) } ref,
    by simp, ?_⟩
  have hcaptions := claims_captionTexts document options (walker.visit ref)
    (absorbItem document options { headings := trailTexts (walker.visit ref) } ref)
    picture.captions
  set result := captionTexts document options (walker.visit ref)
    (absorbItem document options { headings := trailTexts (walker.visit ref) } ref)
    picture.captions
  have hfootnotes := claims_captionTexts document options result.1
    { result.2.1 with captions := result.2.2 } picture.footnotes
  have happend := hcaptions.append document ⟨hfootnotes.chunks, hfootnotes.visited,
    hfootnotes.claimed, hfootnotes.docItems⟩
  exact ⟨happend.chunks, happend.visited, happend.claimed, happend.docItems⟩

/-- The footnotes of a code item, which follow it in its chunk. -/
def footnotesOf : BaseTextItem → List String
  | .code _ _ footnotes => footnotes
  | _ => []

theorem floats_textChunk (ref : String) (item : BaseTextItem) :
  Floats document walker ref (footnotesOf item) (textChunk document options walker ref item)
  := by
  refine ⟨absorbItem document options { headings := trailTexts (walker.visit ref) } ref,
    by simp, ?_⟩
  cases item with
  | code item captions footnotes =>
    have hfootnotes := claims_captionTexts document options (walker.visit ref)
      (absorbItem document options { headings := trailTexts (walker.visit ref) } ref) footnotes
    exact ⟨hfootnotes.chunks, hfootnotes.visited, hfootnotes.claimed, hfootnotes.docItems⟩
  | _ => constructor <;> simp [textChunk, footnotesOf, newCaptions, WorkChunk.withText]

/-! ### What is emitted at one reference -/

/-- The walker has emitted the items `fresh ++ taken`, of which the first were not visited
before. -/
structure Emits (before after : Walker Budget) (fresh taken : List String) : Prop where
  emitted : items after.chunks = items before.chunks ++ (fresh ++ taken)
  nodup : fresh.Nodup
  unvisited : ∀ ref ∈ fresh, ref ∉ before.visited
  disjoint : fresh.Disjoint taken
  visited : ∀ ref ∈ fresh ++ taken, ref ∈ after.visited
  grows : before.visited ⊆ after.visited

theorem Emits.nothing {before after : Walker Budget} (hchunks : after.chunks = before.chunks)
    (hgrows : before.visited ⊆ after.visited) :
  Emits before after [] []
  where
  emitted := by rw [hchunks, List.append_nil, List.append_nil]
  nodup := List.nodup_nil
  unvisited := by simp
  disjoint := List.disjoint_nil_left _
  visited := by simp
  grows := hgrows

/-- One chunk, if it has text. -/
theorem Emits.emit {before after : Walker Budget} {chunk : WorkChunk} {fresh taken : List String}
    (hchunks : after.chunks = before.chunks) (hitems : chunk.docItems = fresh ++ taken)
    (hnodup : fresh.Nodup) (hunvisited : ∀ ref ∈ fresh, ref ∉ before.visited)
    (hdisjoint : fresh.Disjoint taken) (hvisited : ∀ ref ∈ fresh ++ taken, ref ∈ after.visited)
    (hgrows : before.visited ⊆ after.visited) :
  ∃ fresh', Emits before (after.emit chunk) fresh' (if isBlank chunk.text then [] else taken)
  := by
  unfold Walker.emit
  split
  · exact ⟨[], .nothing hchunks hgrows⟩
  · refine ⟨fresh, ?_, hnodup, hunvisited, hdisjoint, hvisited, hgrows⟩
    rw [items, hchunks, flatMap_append, ← hitems]
    simp [items]

/-- The chunk of a floating item that was not visited before. -/
theorem Floats.emit {walker : Walker Budget} {ref : String} {captions : List String}
    {result : Walker Budget × WorkChunk} (h : Floats document walker ref captions result)
    (hvisited : ref ∉ walker.visited)
    (hself : ref ∉ newCaptions document walker.claimed captions) :
  ∃ fresh, Emits walker (result.1.emit result.2) fresh
    (if isBlank result.2.text then [] else newCaptions document walker.claimed captions)
  := by
  obtain ⟨chunk, hchunk, hclaims⟩ := h
  have hvisited' : result.1.visited =
      insert ref walker.visited ∪ (newCaptions document walker.claimed captions).toFinset :=
    hclaims.visited
  have hchunks : result.1.chunks = walker.chunks := hclaims.chunks
  have hitems : result.2.docItems = [ref] ++ newCaptions document walker.claimed captions := by
    rw [hclaims.docItems, hchunk]
    rfl
  apply Emits.emit hchunks hitems
  · exact nodup_singleton ref
  · simpa using hvisited
  · simpa using hself
  · intro other hother
    rw [hvisited']
    obtain hother | hother := mem_append.mp hother
    · obtain rfl := mem_singleton.mp hother
      simp
    · exact Finset.mem_union_right _ (mem_toFinset.mpr hother)
  · rw [hvisited']
    exact (Finset.subset_insert _ _).trans Finset.subset_union_left

/-! ### Lists -/

/-- While a list is flattened, its chunk holds items that were not visited before, each once. -/
structure Fresh (start : Walker Budget) (flat : Flat Budget) : Prop where
  chunks : flat.walker.chunks = start.chunks
  nodup : flat.chunk.docItems.Nodup
  unvisited : ∀ ref ∈ flat.chunk.docItems, ref ∉ start.visited
  visited : ∀ ref ∈ flat.chunk.docItems, ref ∈ flat.walker.visited
  grows : start.visited ⊆ flat.walker.visited

variable {start : Walker Budget} {flat flat' : Flat Budget}

/-- One more item, which was not visited. -/
theorem Fresh.add (h : Fresh start flat) (hvisited : ref ∉ flat.walker.visited)
    (hwalker : flat'.walker = flat.walker.visit ref)
    (hitems : flat'.chunk.docItems = flat.chunk.docItems ++ [ref]) :
  Fresh start flat'
  := by
  constructor
  · rw [hwalker]
    exact h.chunks
  · rw [hitems, nodup_append]
    refine ⟨h.nodup, nodup_singleton ref, ?_⟩
    rintro other hother _ hself rfl
    obtain rfl := mem_singleton.mp hself
    exact hvisited (h.visited _ hother)
  · rw [hitems]
    intro other hother
    obtain hother | hother := mem_append.mp hother
    · exact h.unvisited other hother
    · obtain rfl := mem_singleton.mp hother
      exact fun hstart => hvisited (h.grows hstart)
  · rw [hitems, hwalker]
    intro other hother
    obtain hother | hother := mem_append.mp hother
    · exact Finset.mem_insert_of_mem (h.visited other hother)
    · obtain rfl := mem_singleton.mp hother
      exact Finset.mem_insert_self _ _
  · rw [hwalker]
    exact h.grows.trans (Finset.subset_insert _ _)

/-- What touches neither the items nor the sets of the walker. -/
theorem Fresh.same (h : Fresh start flat) (hvisited : flat'.walker.visited = flat.walker.visited)
    (hchunks : flat'.walker.chunks = flat.walker.chunks)
    (hitems : flat'.chunk.docItems = flat.chunk.docItems) :
  Fresh start flat'
  where
  chunks := hchunks.trans h.chunks
  nodup := hitems ▸ h.nodup
  unvisited := hitems ▸ h.unvisited
  visited := by rw [hitems, hvisited]; exact h.visited
  grows := hvisited ▸ h.grows

theorem Fresh.line (h : Fresh start flat) (marker body : List UInt8) :
  Fresh start (flat.line marker body)
  := by
  unfold Flat.line
  split
  · exact h
  · exact h.same rfl rfl rfl

theorem not_mem_of_passes (h : ¬ flat.passes document ref = true) :
  ref ∉ flat.walker.visited
  := by
  rw [Flat.passes, Bool.or_eq_true, not_or] at h
  simpa using h.1

/-- Flattening takes only what was not visited. -/
theorem fresh_collect (levels : ℕ) :
  (∀ group flat, Fresh start flat →
      Fresh start (collectListEntries document options levels group flat)) ∧
    ∀ item flat, Fresh start flat →
      Fresh start (collectItemChildren document options levels item flat)
  := by
  induction levels with
  | zero =>
    constructor <;> intro _ flat h
    · rw [collectListEntries]
      exact h.same rfl rfl rfl
    · rw [collectItemChildren]
      exact h.same rfl rfl rfl
  | succ levels ih =>
    obtain ⟨ihGroup, ihItem⟩ := ih
    constructor
    · intro group flat h
      rw [collectListEntries]
      refine foldlRecOn group.children _
        (motive := fun s : Flat Budget × ℕ => Fresh start s.1) h ?_
      intro s h ref _
      dsimp only
      split
      next => exact h
      next hpasses =>
        have hvisited := not_mem_of_passes document hpasses
        split
        next nested _ => exact ihGroup nested _ (h.add hvisited rfl rfl)
        next => exact h.same rfl rfl rfl
        next text _ _ =>
          apply ihItem text
          exact (h.add hvisited rfl (docItems_absorbItem ..)).line _ _
    · intro item flat h
      rw [collectItemChildren]
      refine foldlRecOn _ _ (motive := fun flat : Flat Budget => Fresh start flat) h ?_
      intro flat h ref _
      split
      next => exact h
      next hpasses =>
        have hvisited := not_mem_of_passes document hpasses
        split
        next nested _ => exact ihGroup nested _ (h.add hvisited rfl rfl)
        next => exact h.same rfl rfl rfl
        next text _ _ =>
          apply ihItem text
          exact (h.add hvisited rfl (docItems_absorbItem ..)).line _ _

/-- A list emits items that were not visited before. -/
theorem emits_flattened (levels : ℕ) {walker : Walker Budget} (hvisited : ref ∉ walker.visited)
    (group : GroupItem) (text : List UInt8) :
  let flat := flattened document options levels (walker.visit ref) ref group
  ∃ fresh, Emits walker (flat.walker.emit (flat.chunk.withText text)) fresh []
  := by
  intro flat
  have hfresh : Fresh walker flat := by
    apply (fresh_collect document options levels).1
    constructor
    · rfl
    · exact nodup_singleton ref
    · simpa using hvisited
    · simp [Walker.visit]
    · exact Finset.subset_insert _ _
  have hitems : (flat.chunk.withText text).docItems = flat.chunk.docItems ++ [] :=
    (append_nil _).symm
  have hemit := Emits.emit hfresh.chunks hitems hfresh.nodup hfresh.unvisited
    (disjoint_nil_right _) (by simpa using hfresh.visited) hfresh.grows
  rwa [ite_self] at hemit

/-! ### A step of the walk -/

/-- The captions and footnotes that the chunk takes which the walk emits at a reference: those
of a table, picture or code block that the walk comes to for the first time and that has text,
as far as no other has claimed them. -/
def takenAt (walker : Walker Budget) (ref : String) : List String :=
  if ref ∈ walker.visited ∨ excluded (layerOf document ref) then []
  else
    match groupAt document ref, textAt document ref, tableAt document ref,
      pictureAt document ref with
    | some _, _, _, _ => []
    | none, some text, _, _ =>
      if ref ∈ captionRefs document ∨
          isBlank (textChunk document options (walker.visit ref) ref text).2.text then []
      else newCaptions document walker.claimed (footnotesOf text)
    | none, none, some table, _ =>
      if isBlank (tableChunk document options (walker.visit ref) ref table).2.text then []
      else newCaptions document walker.claimed (table.captions ++ table.footnotes)
    | none, none, none, some picture =>
      if isBlank (pictureChunk document options (walker.visit ref) ref picture).2.text then []
      else newCaptions document walker.claimed (picture.captions ++ picture.footnotes)
    | none, none, none, none => []

/-- A table, picture or code block takes a text that is in a chunk already. -/
def Retakes (walker : Walker Budget) (ref : String) : Prop :=
  ∃ taken ∈ takenAt document options walker ref, taken ∈ items walker.chunks

/-- Visiting a reference twice is visiting it once. -/
theorem visit_visit (ref : String) :
  (walker.visit ref).visit ref = walker.visit ref
  := by
  simp [Walker.visit]

/-- The footnotes of a code item are among the references that floating items name. -/
theorem footnotesOf_subset {item : BaseTextItem} (h : textAt document ref = some item) :
  footnotesOf item ⊆ captionRefs document
  := by
  have hmem : item ∈ document.texts := by
    unfold textAt at h
    split at h
    · exact mem_of_getElem? h
    · cases h
  intro footnote hfootnote
  cases item with
  | code item captions footnotes =>
    apply mem_append_right
    exact mem_flatMap.mpr ⟨_, hmem, mem_append_right _ hfootnote⟩
  | _ => cases hfootnote

theorem emits_emitText {walker : Walker Budget} {item : BaseTextItem}
    (hvisited : ref ∉ walker.visited) (htext : textAt document ref = some item) :
  ∃ fresh, Emits walker (emitText document options (walker.visit ref) ref item) fresh
    (if ref ∈ captionRefs document ∨
        isBlank (textChunk document options (walker.visit ref) ref item).2.text then []
      else newCaptions document walker.claimed (footnotesOf item))
  := by
  have hgrows : walker.visited ⊆ (walker.visit ref).visited := Finset.subset_insert _ _
  by_cases hcaption : ref ∈ captionRefs document
  · unfold emitText
    rw [if_pos hcaption, if_pos (.inl hcaption)]
    exact ⟨[], .nothing rfl hgrows⟩
  have hchunk : ∃ fresh, Emits walker
      ((textChunk document options (walker.visit ref) ref item).1.emit
        (markExact (textChunk document options (walker.visit ref) ref item).2)) fresh
      (if isBlank (textChunk document options (walker.visit ref) ref item).2.text then []
        else newCaptions document walker.claimed (footnotesOf item)) := by
    obtain ⟨chunk, hitems, hclaims⟩ := floats_textChunk document options (walker.visit ref) ref item
    rw [visit_visit] at hclaims
    have hfloats : Floats document walker ref (footnotesOf item)
        ((textChunk document options (walker.visit ref) ref item).1,
          markExact (textChunk document options (walker.visit ref) ref item).2) :=
      ⟨chunk, hitems, hclaims.chunks, hclaims.visited, hclaims.claimed, hclaims.docItems⟩
    apply hfloats.emit document hvisited
    exact fun h => hcaption (footnotesOf_subset document htext (newCaptions_subset document h).1)
  unfold emitText
  rw [if_neg hcaption]
  simp only [hcaption, false_or]
  cases item with
  | title base =>
    simp only [footnotesOf, newCaptions, ite_self]
    exact ⟨[], .nothing rfl hgrows⟩
  | sectionHeader level base =>
    simp only [footnotesOf, newCaptions, ite_self]
    refine ⟨[], .nothing rfl (hgrows.trans ?_)⟩
    dsimp only
    cases foldedChild document base with
    | none => exact subset_rfl
    | some child => exact Finset.subset_insert _ _
  | _ => exact hchunk

/-- What one step of the walk emits. -/
theorem emits_step (levels : ℕ) (walker : Walker Budget) (ref : String) :
  ∃ fresh, Emits walker (step document options levels walker ref).1 fresh
    (takenAt document options walker ref)
  := by
  have hgrows : walker.visited ⊆ (walker.visit ref).visited := Finset.subset_insert _ _
  unfold step takenAt
  by_cases hvisited : ref ∈ walker.visited
  · rw [if_pos hvisited, if_pos (.inl hvisited)]
    exact ⟨[], .nothing rfl subset_rfl⟩
  rw [if_neg hvisited]
  dsimp only
  by_cases hexcluded : excluded (layerOf document ref) = true
  · rw [if_pos hexcluded, if_pos (.inr hexcluded)]
    exact ⟨[], .nothing rfl hgrows⟩
  rw [if_neg hexcluded, if_neg (not_or.mpr ⟨hvisited, hexcluded⟩)]
  cases hgroup : groupAt document ref with
  | some group =>
    dsimp only
    split
    · exact emits_flattened document options levels hvisited group _
    · exact ⟨[], .nothing rfl hgrows⟩
  | none =>
  cases htext : textAt document ref with
  | some text => exact emits_emitText document options hvisited htext
  | none =>
  have hself : ∀ captions, ref ∉ newCaptions document walker.claimed captions := by
    intro captions h
    have := (newCaptions_subset document h).2.1
    rw [htext] at this
    cases this
  cases htable : tableAt document ref with
  | some table =>
    obtain hfloats := floats_tableChunk document options (walker.visit ref) ref table
    rw [Floats, visit_visit] at hfloats
    exact Floats.emit document hfloats hvisited (hself _)
  | none =>
  cases hpicture : pictureAt document ref with
  | some picture =>
    obtain hfloats := floats_pictureChunk document options (walker.visit ref) ref picture
    rw [Floats, visit_visit] at hfloats
    exact Floats.emit document hfloats hvisited (hself _)
  | none => exact ⟨[], .nothing rfl hgrows⟩

/-! ### Whole walks -/

/-- The items in the chunks were visited, and are there once. -/
structure Sound (walker : Walker Budget) : Prop where
  nodup : (items walker.chunks).Nodup
  visited : ∀ ref ∈ items walker.chunks, ref ∈ walker.visited

/-- A step that does not take a text again keeps the items apart. -/
theorem Sound.step {walker : Walker Budget} (h : Sound walker) (levels : ℕ) {ref : String}
    (hretakes : ¬ Retakes document options walker ref) :
  Sound (step document options levels walker ref).1
  := by
  obtain ⟨fresh, hemits⟩ := emits_step document options levels walker ref
  have htaken : (takenAt document options walker ref).Nodup := by
    unfold takenAt
    split_ifs <;> try exact nodup_nil
    split <;> try split_ifs
    all_goals first | exact nodup_nil | exact nodup_newCaptions ..
  constructor
  · rw [hemits.emitted]
    apply List.Nodup.append h.nodup (hemits.nodup.append htaken hemits.disjoint)
    intro other hother hmem
    obtain hfresh | htaken := mem_append.mp hmem
    · exact hemits.unvisited other hfresh (h.visited other hother)
    · exact hretakes ⟨other, htaken, hother⟩
  · rw [hemits.emitted]
    intro other hother
    obtain hother | hother := mem_append.mp hother
    · exact hemits.grows (h.visited other hother)
    · exact hemits.visited other hother

/-- The walk that starts at a reference comes to another one, in the given state. -/
inductive Comes : ℕ → Walker Budget → String → Walker Budget → String → Prop where
  | here (levels : ℕ) (walker : Walker Budget) (ref : String) :
    Comes (levels + 1) walker ref walker ref
  | next {levels : ℕ} {walker walker' : Walker Budget} {ref child ref' : String}
      {before after : List String}
      (hnext : (step document options levels walker ref).2 = before ++ child :: after)
      (hcomes : Comes levels
        (before.foldl (walk document options levels) (step document options levels walker ref).1)
        child walker' ref') :
    Comes (levels + 1) walker ref walker' ref'

/-- A walk none of whose steps takes a text again keeps the items apart. -/
theorem Sound.walk {levels : ℕ} {walker : Walker Budget} {ref : String} (h : Sound walker)
    (hretakes : ∀ walker' ref', Comes document options levels walker ref walker' ref' →
      ¬ Retakes document options walker' ref') :
  Sound (walk document options levels walker ref)
  := by
  induction levels generalizing walker ref with
  | zero => exact ⟨h.nodup, h.visited⟩
  | succ levels ih =>
    have hstart : ∀ before after,
        (Chunking.step document options levels walker ref).2 = before ++ after →
        Sound (before.foldl (Chunking.walk document options levels)
          (Chunking.step document options levels walker ref).1) := by
      intro before
      induction before using reverseRecOn with
      | nil =>
        intro _ _
        exact h.step document options levels (hretakes _ _ (.here ..))
      | append_singleton before child ihBefore =>
        intro after hnext
        rw [append_assoc] at hnext
        rw [foldl_append]
        exact ih (ihBefore _ hnext) fun walker' ref' hcomes =>
          hretakes walker' ref' (.next hnext hcomes)
    exact hstart _ [] (append_nil _).symm

theorem items_prefix_step (levels : ℕ) (walker : Walker Budget) (ref : String) :
  items walker.chunks <+: items (step document options levels walker ref).1.chunks
  := by
  obtain ⟨fresh, hemits⟩ := emits_step document options levels walker ref
  rw [hemits.emitted]
  exact prefix_append _ _

/-- Chunks that were emitted stay. -/
theorem items_prefix_walk (levels : ℕ) (walker : Walker Budget) (ref : String) :
  items walker.chunks <+: items (walk document options levels walker ref).chunks
  := by
  induction levels generalizing walker ref with
  | zero => exact prefix_rfl
  | succ levels ih =>
    exact foldlRecOn _ _
      (motive := fun walker' : Walker Budget => items walker.chunks <+: items walker'.chunks)
      (items_prefix_step document options levels walker ref)
      fun walker' hstart child _ => hstart.trans (ih walker' child)

/-- What a step emits is in the end among the chunks of the walk it belongs to. -/
theorem Comes.items_prefix {levels : ℕ} {walker walker' : Walker Budget} {ref ref' : String}
    (h : Comes document options levels walker ref walker' ref') :
  ∃ levels', items (step document options levels' walker' ref').1.chunks <+:
    items (walk document options levels walker ref).chunks
  := by
  have hfold : ∀ levels (next : List String) (walker : Walker Budget),
      items walker.chunks <+:
        items (next.foldl (walk document options levels) walker).chunks := by
    intro levels next walker
    exact foldlRecOn _ _
      (motive := fun walker' : Walker Budget => items walker.chunks <+: items walker'.chunks)
      prefix_rfl
      fun walker' hstart child _ =>
        hstart.trans (items_prefix_walk document options levels walker' child)
  induction h with
  | here levels walker ref => exact ⟨levels, hfold levels _ _⟩
  | @next levels walker walker' ref child ref' before after hnext hcomes ih =>
    obtain ⟨levels', hstart⟩ := ih
    refine ⟨levels', hstart.trans ?_⟩
    rw [walk]
    simp only [hnext, foldl_append, foldl_cons]
    exact hfold levels after _

/-- The walk keeps the items of a document apart exactly when, at none of its steps, a table,
picture or code block takes as its caption or footnote a text that an earlier chunk holds. -/
theorem once_run_iff (gridBudget : Budget) :
  Once document (run document options gridBudget) ↔
    ∀ walker ref, Comes document options (kMaximumNesting + 1) { gridBudget } "#/body" walker ref →
      ¬ Retakes document options walker ref
  := by
  have hitems : items (run document options gridBudget) =
      items (walk document options (kMaximumNesting + 1) { gridBudget } "#/body").chunks := by
    rw [items, run, List.flatMap_map, items]
    congr 1
    funext chunk
    rw [declareLanguage]
    split <;> rfl
  rw [Once, hitems]
  constructor
  · intro honce walker ref hcomes ⟨taken, htaken, hheld⟩
    obtain ⟨levels', hstart⟩ := hcomes.items_prefix
    obtain ⟨fresh, hemits⟩ := emits_step document options levels' walker ref
    have htext : (textAt document taken).isSome := by
      unfold takenAt at htaken
      split_ifs at htaken
      · cases htaken
      · split at htaken <;> try split_ifs at htaken
        all_goals first
          | exact (newCaptions_subset document htaken).2.1
          | cases htaken
    have hcount := hstart.sublist.count_le taken
    rw [hemits.emitted, List.count_append, List.count_append] at hcount
    have hheld := List.count_pos_iff.mpr hheld
    have htaken := List.count_pos_iff.mpr htaken
    have := honce taken (.inl htext)
    omega
  · intro hretakes ref _
    have hstart : Sound ({ gridBudget } : Walker Budget) :=
      ⟨List.nodup_nil, fun _ h => absurd h List.not_mem_nil⟩
    have hsound := hstart.walk document options hretakes
    exact List.nodup_iff_count_le_one.mp hsound.nodup ref

/-- A list that holds a text, before a table that names the text as its caption. -/
def listedCaption : Document Unit where
  body := { children := ["#/groups/0", "#/tables/0"] }
  groups := [{ label := .list, children := ["#/texts/0"] }]
  texts := [.text { text := [0x54] }]
  tables := [{ captions := ["#/texts/0"], data := () }]

/-- Tables without a body, and texts without offsets. -/
def captionsOnly : ChunkOptions Unit Unit where
  offsets _ := none
  serializeTable _ budget := ([], budget)

/-- The text is in the chunk of the list and in that of the table. -/
theorem not_once_listedCaption :
  ¬ Once listedCaption (run listedCaption captionsOnly ())
  := by
  intro h
  have htwice : (items (run listedCaption captionsOnly ())).count "#/texts/0" = 2 := by
    decide +kernel
  have := h "#/texts/0" (.inl (by decide +kernel))
  omega

end GRParse.Chunking
