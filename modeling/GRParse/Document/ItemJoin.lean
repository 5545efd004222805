import GRParse.Document.PositionRemap
import GRParse.Document.Basic
import Mathlib

/-!
# Joining two text items

`absorb` joins a paragraph with its continuation, and `fold_title_line` two lines of a title.  The
texts are trimmed where they meet, and the join drops or keeps a hyphen or puts a space between
them.  The inline spans of the tail move with its characters; the charspans of its provenance are
left where they were, which is right only where its characters stay in place.
-/

namespace GRParse.Joining

open Containers Protobuf Utf8 List
open Hyphenation (isAsciiSpace isAsciiAlpha)

/-! ### Items -/

/-- A range of code points. -/
structure IntSpan where
  start : ℤ := 0
  stop : ℤ := 0
  deriving DecidableEq

/-- The positions a range covers. -/
def IntSpan.positions (span : IntSpan) : Set ℤ :=
  Set.Ico span.start span.stop

/-- A run of formatting or a link inside a text. -/
structure InlineSpan where
  range : IntSpan := {}
  rest : Message := .done
  deriving DecidableEq

/-- Where an item, or a part of its text, came from. -/
structure ProvenanceItem where
  charspan : Option IntSpan := none
  rest : Message := .done
  deriving DecidableEq

/-- The fields of a text item that a join reads and writes. -/
structure TextItemBase where
  text : List UInt8 := []
  orig : List UInt8 := []
  spans : List InlineSpan := []
  prov : List ProvenanceItem := []
  comments : List Message := []
  source : List Message := []
  /-- The `custom_fields` of `meta`, where there is one. -/
  customFields : Option (Map String Message) := none

/-! ### The joins -/

/-- `codepoint_at`: the code points that begin before a byte. -/
def codepointAt (text : List UInt8) (byte : ℕ) : ℕ :=
  (text.take byte).countP startsChar

/-- `joined_text`: by the hyphen rule when the head ends on a hyphenated word that is not
suspended, with a space otherwise. -/
def joinedText (head tail : List UInt8) : List UInt8 :=
  let headTrimmed := Hyphenation.Bytes.trimRight head
  let tailTrimmed := Hyphenation.Bytes.trimLeft tail
  let headWord := Hyphenation.Bytes.trailingWord headTrimmed.dropLast
  let tailWord := Hyphenation.Bytes.leadingWord tailTrimmed
  if headTrimmed.getLast? = some Hyphenation.Bytes.kHyphen &&
      !Hyphenation.Bytes.suspendedHyphen tailTrimmed && !headWord.isEmpty &&
      !tailWord.isEmpty then
    headTrimmed.take (headTrimmed.length - 1 - headWord.length) ++
      Hyphenation.Bytes.joinHyphenatedFragments headWord tailWord ++
      tailTrimmed.drop tailWord.length
  else headTrimmed ++ [32] ++ tailTrimmed

/-- Moves a span by a number of code points. -/
def InlineSpan.shifted (shift : ℤ) (span : InlineSpan) : InlineSpan :=
  { span with range := ⟨span.range.start + shift, span.range.stop + shift⟩ }

/-- `absorb`: the head, after the tail is joined to it. -/
def absorb (head tail : TextItemBase) : TextItemBase :=
  let joined := joinedText head.text tail.text
  let shift : ℤ := codepointAt joined joined.length - codepointAt tail.text tail.text.length
  { text := joined
    orig :=
      if head.orig.isEmpty && tail.orig.isEmpty then head.orig
      else joinedText (if head.orig.isEmpty then head.text else head.orig)
        (if tail.orig.isEmpty then tail.text else tail.orig)
    prov := head.prov ++ tail.prov
    spans := head.spans ++ tail.spans.map (·.shifted shift)
    comments := head.comments ++ tail.comments
    source := tail.source.foldl
      (fun known source => if source ∈ known then known else known ++ [source]) head.source
    customFields := match tail.customFields with
      | none => head.customFields
      | some fields => some (head.customFields.getD ∅ ∪ fields) }

/-- `fold_title_line`: the head, after the next line is folded into it. -/
def foldTitleLine (head tail : TextItemBase) : TextItemBase :=
  let headText := Hyphenation.Bytes.trimRight head.text
  let tailText := Hyphenation.Bytes.trimLeft tail.text
  let shift : ℤ := headText.countP startsChar + 1 -
    (tail.text.countP startsChar - tailText.countP startsChar)
  { head with
    text := headText ++ [32] ++ tailText
    orig :=
      if head.orig.isEmpty && tail.orig.isEmpty then head.orig
      else Hyphenation.Bytes.trimRight (if head.orig.isEmpty then headText else head.orig) ++ [32] ++
        Hyphenation.Bytes.trimLeft (if tail.orig.isEmpty then tailText else tail.orig)
    prov := head.prov ++ tail.prov
    spans := head.spans ++ tail.spans.map (·.shifted shift) }

/-! ### What survives a join -/

/-- What a join keeps of two texts: a first part of the head and a last part of the tail, with what
it puts between them. -/
structure Seam where
  kept : ℕ
  glue : List Char
  dropped : ℕ

/-- The text of the join. -/
def Seam.text (seam : Seam) (head tail : List Char) : List Char :=
  head.take seam.kept ++ seam.glue ++ tail.drop seam.dropped

/-- By how much the characters of the tail move. -/
def Seam.shift (seam : Seam) : ℤ :=
  seam.kept + seam.glue.length - seam.dropped

/-- The positions of the head that survive. -/
def Seam.ofHead (seam : Seam) : Set ℤ :=
  Set.Ico 0 seam.kept

/-- The positions of the tail that survive. -/
def Seam.ofTail (seam : Seam) (tail : List Char) : Set ℤ :=
  Set.Ico seam.dropped tail.length

/-- The head without the white space that ends it, and the tail without what begins it. -/
def trimmedSeam (glue : List Char) (head tail : List Char) : Seam :=
  ⟨(head.rdropWhile isAsciiSpace).length, glue, tail.length - (Hyphenation.trimLeft tail).length⟩

/-- The words at the seam are the parts of a hyphenated word. -/
def brokenWord (head tail : List Char) : Bool :=
  let headTrimmed := head.rdropWhile isAsciiSpace
  let tailTrimmed := Hyphenation.trimLeft tail
  headTrimmed.getLast? = some '-' && !Hyphenation.suspendedHyphen tailTrimmed &&
    !(Hyphenation.trailingWord headTrimmed.dropLast).isEmpty &&
    !(Hyphenation.leadingWord tailTrimmed).isEmpty

/-- What joining paragraphs keeps: all but the white space at the seam, and a hyphen there that
broke a word that is no known compound. -/
def paragraphSeam (head tail : List Char) : Seam :=
  let trimmed := trimmedSeam [] head tail
  if brokenWord head tail then
    if Hyphenation.isKnownCompound
        (Hyphenation.trailingWord (head.rdropWhile isAsciiSpace).dropLast)
        (Hyphenation.leadingWord (Hyphenation.trimLeft tail)) then trimmed
    else { trimmed with kept := trimmed.kept - 1 }
  else { trimmed with glue := [' '] }

/-- What folding title lines keeps: all but the white space at the seam. -/
def titleSeam (head tail : List Char) : Seam :=
  trimmedSeam [' '] head tail

/-- A range that covers surviving characters only still covers them, moved by `shift`. -/
def Follows (surviving : Set ℤ) (shift : ℤ) (before after : IntSpan) : Prop :=
  before.positions ⊆ surviving → after.positions = (· + shift) '' before.positions

/-- The charspans of two entries, where they have one. -/
def ProvenanceItem.Follows (surviving : Set ℤ) (shift : ℤ) (before after : ProvenanceItem) : Prop :=
  Option.Rel (Joining.Follows surviving shift) before.charspan after.charspan

/-- The joined item has the text of the seam, and the annotations of two items cover, on it, the
characters that they covered. -/
structure Annotated (seam : Seam) (headText tailText : List Char)
    (head tail joined : TextItemBase) : Prop where
  text : joined.text = encode (seam.text headText tailText)
  spans : ∃ ofHead ofTail, joined.spans = ofHead ++ ofTail ∧
    List.Forall₂ (fun before after => Follows seam.ofHead 0 before.range after.range)
      head.spans ofHead ∧
    List.Forall₂ (fun before after =>
      Follows (seam.ofTail tailText) seam.shift before.range after.range) tail.spans ofTail
  prov : ∃ ofHead ofTail, joined.prov = ofHead ++ ofTail ∧
    List.Forall₂ (ProvenanceItem.Follows seam.ofHead 0) head.prov ofHead ∧
    List.Forall₂ (ProvenanceItem.Follows (seam.ofTail tailText) seam.shift) tail.prov ofTail

/-! ### The texts -/

section Texts

variable (head tail : List Char)

theorem trimRight_encode :
  Hyphenation.Bytes.trimRight (encode head) = encode (head.rdropWhile isAsciiSpace)
  := Hyphenation.Bytes.reads_isAsciiSpace.rdropWhile head

theorem take_trimmed :
  head.take (trimmedSeam [] head tail).kept = head.rdropWhile isAsciiSpace
  := (prefix_iff_eq_take.mp ( rdropWhile_prefix _ _)).symm

theorem drop_trimmed :
  tail.drop (trimmedSeam [] head tail).dropped = Hyphenation.trimLeft tail
  := (suffix_iff_eq_drop.mp (dropWhile_suffix _)).symm

theorem dropLast_encode_hyphen {text : List Char} (h : text.getLast? = some '-') :
  (encode text).dropLast = encode text.dropLast
  := by
  obtain ⟨front, rfl⟩ := getLast?_eq_some_iff.mp h
  rw [encode_append, encode_cons, Hyphenation.Bytes.utf8EncodeChar_hyphen, encode_nil,
    append_nil, dropLast_concat, dropLast_concat]

theorem getLast?_encode_hyphen (text : List Char) :
  (encode text).getLast? = some Hyphenation.Bytes.kHyphen ↔ text.getLast? = some '-'
  := by
  have hread := (@Reads.mem ['-'] (by decide)).getLast? text
  have hbytes : encode ['-'] = [Hyphenation.Bytes.kHyphen] := by decide
  rw [hbytes, Bool.eq_iff_iff, Option.any_eq_true, Option.any_eq_true] at hread
  simpa using hread

/-- The words at the seam of the bytes. -/
theorem brokenWord_encode :
  (let headTrimmed := Hyphenation.Bytes.trimRight (encode head)
    let tailTrimmed := Hyphenation.Bytes.trimLeft (encode tail)
    headTrimmed.getLast? = some Hyphenation.Bytes.kHyphen &&
      !Hyphenation.Bytes.suspendedHyphen tailTrimmed &&
      !(Hyphenation.Bytes.trailingWord headTrimmed.dropLast).isEmpty &&
      !(Hyphenation.Bytes.leadingWord tailTrimmed).isEmpty) = brokenWord head tail
  := by
  simp only [trimRight_encode, Hyphenation.Bytes.trimLeft_encode,
    Hyphenation.Bytes.suspendedHyphen_encode, Hyphenation.Bytes.leadingWord_encode, isEmpty_encode,
    getLast?_encode_hyphen, brokenWord]
  by_cases hhyphen : (head.rdropWhile isAsciiSpace).getLast? = some '-'
  · rw [dropLast_encode_hyphen hhyphen, Hyphenation.Bytes.trailingWord_encode, isEmpty_encode]
  · simp [hhyphen]

/-- The parts of a broken word, joined between what stands before and behind it. -/
theorem joined_brokenWord {front headTrimmed tailTrimmed : List Char}
    (hfront : headTrimmed = front ++ ['-']) :
  let headWord := Hyphenation.Bytes.trailingWord (encode headTrimmed).dropLast
  let tailWord := Hyphenation.Bytes.leadingWord (encode tailTrimmed)
  (encode headTrimmed).take ((encode headTrimmed).length - 1 - headWord.length) ++
      Hyphenation.Bytes.joinHyphenatedFragments headWord tailWord ++
      (encode tailTrimmed).drop tailWord.length =
    encode (front ++
      (if Hyphenation.isKnownCompound (Hyphenation.trailingWord front)
        (Hyphenation.leadingWord tailTrimmed) then ['-'] else []) ++ tailTrimmed)
  := by
  have hdrop : (encode headTrimmed).dropLast = encode front := by
    rw [dropLast_encode_hyphen (by simp [hfront]), hfront, dropLast_concat]
  have hlength : (encode headTrimmed).length - 1 = (encode front).length := by
    rw [← hdrop, length_dropLast]
  have hbefore : encode front =
      encode (front.take (front.length - (Hyphenation.trailingWord front).length)) ++
        encode (Hyphenation.trailingWord front) := by
    rw [← encode_append, Hyphenation.take_append_trailingWord]
  have htake : (encode headTrimmed).take
      ((encode front).length - (encode (Hyphenation.trailingWord front)).length) =
        encode (front.take (front.length - (Hyphenation.trailingWord front).length)) := by
    rw [hfront, encode_append, take_append_of_le_length (Nat.sub_le _ _), hbefore,
      length_append, Nat.add_sub_cancel, take_left]
  have hbehind : encode tailTrimmed = encode (Hyphenation.leadingWord tailTrimmed) ++
      encode (tailTrimmed.drop (Hyphenation.leadingWord tailTrimmed).length) := by
    rw [← encode_append, Hyphenation.leadingWord_append_drop]
  intro headWord tailWord
  have hheadWord : headWord = encode (Hyphenation.trailingWord front) := by
    rw [← Hyphenation.Bytes.trailingWord_encode, ← hdrop]
  have htailWord : tailWord = encode (Hyphenation.leadingWord tailTrimmed) :=
    Hyphenation.Bytes.leadingWord_encode tailTrimmed
  have hrest : (encode tailTrimmed).drop (encode (Hyphenation.leadingWord tailTrimmed)).length =
      encode (tailTrimmed.drop (Hyphenation.leadingWord tailTrimmed).length) := by
    rw [hbehind, drop_left]
  rw [hheadWord, htailWord, hlength, htake, hrest,
    Hyphenation.Bytes.joinHyphenatedFragments_encode, ← encode_append, ← encode_append,
    Hyphenation.joinHyphenatedFragments]
  congr 1
  generalize (if Hyphenation.isKnownCompound _ _ then ['-'] else []) = hyphen
  conv_rhs =>
    rw [← Hyphenation.take_append_trailingWord front,
      ← Hyphenation.leadingWord_append_drop tailTrimmed]
  simp

/-- The text that `absorb` writes. -/
theorem joinedText_encode :
  joinedText (encode head) (encode tail) = encode ((paragraphSeam head tail).text head tail)
  := by
  have hbroken := brokenWord_encode head tail
  have hhead := take_trimmed head tail
  have htail := drop_trimmed head tail
  rw [joinedText, paragraphSeam]
  simp only at hbroken ⊢
  rw [hbroken, trimRight_encode, Hyphenation.Bytes.trimLeft_encode]
  by_cases h : brokenWord head tail
  · obtain ⟨front, hfront⟩ : ∃ front, head.rdropWhile isAsciiSpace = front ++ ['-'] := by
      simp only [brokenWord, Bool.and_eq_true, decide_eq_true_eq] at h
      exact getLast?_eq_some_iff.mp h.1.1.1
    rw [if_pos h, if_pos h, joined_brokenWord hfront]
    rw [hfront] at hhead
    have hkept : head.take ((trimmedSeam [] head tail).kept - 1) = front := by
      have htaken := congrArg (take front.length) hhead
      have hlength : (trimmedSeam [] head tail).kept = front.length + 1 := by
        simp [trimmedSeam, hfront]
      rw [take_take, take_left, hlength, Nat.min_eq_left (Nat.le_succ _)] at htaken
      rw [hlength, Nat.add_sub_cancel, htaken]
    rw [hfront, dropLast_concat]
    split
    · rw [Seam.text, hhead, htail]
      simp [trimmedSeam]
    · rw [Seam.text]
      simp only
      rw [hkept, htail]
      simp [trimmedSeam]
  · rw [if_neg h, if_neg h, Seam.text]
    simp only [trimmedSeam] at hhead htail ⊢
    rw [hhead, htail, encode_append, encode_append]
    rfl

theorem kept_le (glue : List Char) :
  (trimmedSeam glue head tail).kept ≤ head.length
  := ( rdropWhile_prefix _ _).length_le

theorem dropped_le (glue : List Char) :
  (trimmedSeam glue head tail).dropped ≤ tail.length
  := Nat.sub_le _ _

theorem paragraphSeam_le :
  (paragraphSeam head tail).kept ≤ head.length ∧ (paragraphSeam head tail).dropped ≤ tail.length
  := by
  have hkept := kept_le head tail []
  have hdropped := dropped_le head tail []
  rw [paragraphSeam]
  split
  · split
    · exact ⟨hkept, hdropped⟩
    · exact ⟨le_trans (Nat.sub_le _ _) hkept, hdropped⟩
  · exact ⟨hkept, hdropped⟩

end Texts

/-! ### The annotations -/

theorem Seam.length_text {seam : Seam} {head tail : List Char} (kept : seam.kept ≤ head.length)
    (dropped : seam.dropped ≤ tail.length) :
  ((seam.text head tail).length : ℤ) - tail.length = seam.shift
  := by
  simp only [Seam.text, Seam.shift, length_append, length_take, length_drop]
  omega

variable (surviving : Set ℤ)

/-- A range that moves with its characters. -/
theorem follows_shifted (shift : ℤ) (span : InlineSpan) :
  Follows surviving shift span.range (span.shifted shift).range
  := by
  intro _
  exact (Set.image_add_const_Ico shift _ _).symm

theorem follows_zero (span : IntSpan) :
  Follows surviving 0 span span
  := by
  intro _
  simp

/-- A range that stays where it is covers the characters it covered if they stay, or if it covers
none. -/
theorem follows_self_iff (shift : ℤ) (span : IntSpan) :
  Follows surviving shift span span ↔
    (span.positions ⊆ surviving → span.positions.Nonempty → shift = 0)
  := by
  refine forall_congr' fun _ => ?_
  rw [IntSpan.positions, Set.image_add_const_Ico]
  constructor
  · rintro heq ⟨position, hposition⟩
    have hlt : span.start < span.stop := lt_of_le_of_lt hposition.1 hposition.2
    have hstart : span.start ∈ Set.Ico (span.start + shift) (span.stop + shift) :=
      heq ▸ Set.left_mem_Ico.mpr hlt
    have hmoved : span.start + shift ∈ Set.Ico span.start span.stop :=
      heq ▸ Set.left_mem_Ico.mpr (by omega)
    have := hstart.1
    have := hmoved.1
    omega
  · intro h
    obtain hnone | hsome := (Set.Ico span.start span.stop).eq_empty_or_nonempty
    · have hle : span.stop ≤ span.start := not_lt.mp (Set.Ico_eq_empty_iff.mp hnone)
      rw [hnone, Set.Ico_eq_empty (by omega)]
    · rw [h hsome, add_zero, add_zero]

/-- No entry of the tail's provenance has a charspan that covers surviving characters, unless they
stay in place. -/
def CharspansStay (seam : Seam) (tail : TextItemBase) (tailText : List Char) : Prop :=
  seam.shift = 0 ∨ ∀ entry ∈ tail.prov, ∀ span ∈ entry.charspan,
    span.positions ⊆ seam.ofTail tailText → ¬ span.positions.Nonempty

theorem forall₂_map_shifted (shift : ℤ) (spans : List InlineSpan) :
  List.Forall₂ (fun before after => Follows surviving shift before.range after.range)
    spans (spans.map (·.shifted shift))
  := by
  rw [forall₂_map_right_iff, forall₂_same]
  exact fun span _ => follows_shifted surviving shift span

theorem follows_entry_iff (shift : ℤ) (entry : ProvenanceItem) :
  ProvenanceItem.Follows surviving shift entry entry ↔
    ∀ span ∈ entry.charspan, Follows surviving shift span span
  := by
  obtain ⟨_ | span, rest⟩ := entry
  · exact ⟨fun _ => nofun, fun _ => .none⟩
  · constructor
    · rintro (⟨h⟩ | _) _ ⟨⟩
      exact h
    · exact fun h => .some (h span rfl)

/-- Where the spans move with the tail and its provenance is appended as it is. -/
theorem annotated_iff {seam : Seam} {headText tailText : List Char}
    {head tail joined : TextItemBase} (text : joined.text = encode (seam.text headText tailText))
    (spans : joined.spans = head.spans ++ tail.spans.map (·.shifted seam.shift))
    (prov : joined.prov = head.prov ++ tail.prov) :
  Annotated seam headText tailText head tail joined ↔ CharspansStay seam tail tailText
  := by
  have htail : List.Forall₂ (ProvenanceItem.Follows (seam.ofTail tailText) seam.shift)
      tail.prov tail.prov ↔ CharspansStay seam tail tailText := by
    rw [forall₂_same, CharspansStay, or_iff_not_imp_left]
    constructor
    · intro h hshift entry hentry span hspan hsurvives hcovers
      have hentryFollows := (follows_entry_iff _ _ _).mp (h entry hentry) span hspan
      exact hshift ((follows_self_iff _ _ _).mp hentryFollows hsurvives hcovers)
    · intro h entry hentry
      rw [follows_entry_iff]
      intro span hspan
      rw [follows_self_iff]
      intro hsurvives hcovers
      by_contra hshift
      exact h hshift entry hentry span hspan hsurvives hcovers
  constructor
  · rintro ⟨-, -, ofHead, ofTail, hprov, hhead, htailProv⟩
    have hsame := append_inj (prov.symm.trans hprov) hhead.length_eq
    rw [← htail]
    rwa [← hsame.2] at htailProv
  · intro h
    refine ⟨text, ⟨_, _, spans, ?_, forall₂_map_shifted _ _ _⟩, _, _, prov, ?_, htail.mpr h⟩
    · rw [forall₂_same]
      exact fun span _ => follows_zero _ _
    · rw [forall₂_same]
      intro entry _
      rw [follows_entry_iff]
      exact fun span _ => follows_zero _ _

section Items

variable (headText tailText : List Char) (head tail : TextItemBase)

/-- The spans that `absorb` appends move by as much as the tail's characters. -/
theorem absorb_spans :
  (absorb { head with text := encode headText } { tail with text := encode tailText }).spans =
    head.spans ++ tail.spans.map (·.shifted (paragraphSeam headText tailText).shift)
  := by
  simp only [absorb, codepointAt, take_length, joinedText_encode, countP_encode]
  rw [Seam.length_text (paragraphSeam_le headText tailText).1
    (paragraphSeam_le headText tailText).2]

/-- The text that `fold_title_line` writes. -/
theorem foldTitleLine_text :
  (foldTitleLine { head with text := encode headText }
      { tail with text := encode tailText }).text =
    encode ((titleSeam headText tailText).text headText tailText)
  := by
  have hhead := take_trimmed headText tailText
  have htail := drop_trimmed headText tailText
  simp only [foldTitleLine, trimRight_encode, Hyphenation.Bytes.trimLeft_encode, titleSeam,
    Seam.text, trimmedSeam] at hhead htail ⊢
  rw [hhead, htail, encode_append, encode_append]
  rfl

theorem foldTitleLine_spans :
  (foldTitleLine { head with text := encode headText }
      { tail with text := encode tailText }).spans =
    head.spans ++ tail.spans.map (·.shifted (titleSeam headText tailText).shift)
  := by
  have htail : (Hyphenation.trimLeft tailText).length ≤ tailText.length :=
    (dropWhile_suffix _).length_le
  simp only [foldTitleLine, trimRight_encode, Hyphenation.Bytes.trimLeft_encode, countP_encode,
    titleSeam, Seam.shift, trimmedSeam, length_singleton]
  congr 2
  funext span
  congr 1
  omega

/-- The paragraphs that `absorb` joins keep their annotations on their characters exactly when the
charspans of the tail need not move, and so do the title lines that `fold_title_line` joins. -/
theorem annotated_iff_charspansStay :
  (Annotated (paragraphSeam headText tailText) headText tailText head tail
      (absorb { head with text := encode headText } { tail with text := encode tailText }) ↔
    CharspansStay (paragraphSeam headText tailText) tail tailText) ∧
  (Annotated (titleSeam headText tailText) headText tailText head tail
      (foldTitleLine { head with text := encode headText } { tail with text := encode tailText }) ↔
    CharspansStay (titleSeam headText tailText) tail tailText)
  := by
  constructor
  · exact annotated_iff (joinedText_encode headText tailText)
      (absorb_spans headText tailText head tail) rfl
  · exact annotated_iff (foldTitleLine_text headText tailText head tail)
      (foldTitleLine_spans headText tailText head tail) rfl

end Items

/-- The charspan of a paragraph's continuation covers the head's words after the join. -/
theorem not_annotated_continuation :
  ¬ ∀ (headText tailText : List Char) (head tail : TextItemBase),
    Annotated (paragraphSeam headText tailText) headText tailText head tail
      (absorb { head with text := encode headText } { tail with text := encode tailText })
  := by
  intro h
  have hannotated := h "brown".toList "fox".toList {} { prov := [{ charspan := some ⟨0, 3⟩ }] }
  rw [annotated_iff (joinedText_encode _ _) (absorb_spans _ _ _ _) rfl] at hannotated
  obtain hshift | hnone := hannotated
  · exact absurd hshift (by decide +kernel)
  · refine hnone _ (List.mem_singleton.mpr rfl) ⟨0, 3⟩ rfl ?_ ⟨0, le_rfl, by decide⟩
    exact Set.Ico_subset_Ico (by decide) (by decide)

end GRParse.Joining
