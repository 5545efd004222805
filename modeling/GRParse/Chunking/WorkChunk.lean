import GRParse.Chunking.Codec
import Mathlib.Algebra.Order.Ring.Rat
import Mathlib.Data.Finset.Lattice.Lemmas

/-!
# Chunks being built

The passes of the chunker work on chunks that are still being built: a text with the headings
it stands under, the references of the items it was made of, and what these items record.
-/

namespace GRParse.Chunking

/-- A chunk while it is being built.  When its offsets are exact they span its text. -/
structure WorkChunk where
  text : List UInt8 := []
  headings : List (List UInt8) := []
  captions : List (List UInt8) := []
  docItems : List String := []
  pages : Finset ℤ := ∅
  offsetsKnown : Bool := false
  offsetsComplete : Bool := true
  start : ℕ := 0
  stop : ℕ := 0
  offsetsExact : Bool := false
  minConfidence : Option ℚ := none
  sawDigital : Bool := false
  sawOcr : Bool := false
  languages : Finset String := ∅
  languageUnknown : Bool := false
  exact_span : offsetsExact = true → start ≤ stop ∧ stop - start = (decodeUtf8 text).length := by
    simp

/-- A line feed. -/
def kNewline : UInt8 := 0x0A

end GRParse.Chunking
