import GRParse.Targets.BundleFiles
import GRParse.Targets.Digests
import GRParse.Targets.ZipReader

/-!
# The archive of a bundle

`deliver_zip` returns a bundle as one archive.  Its reader can check the members against the
manifest.
-/

namespace GRParse.Bundles

open Digest Json LittleEndian Zip

/-- `deliver_zip`: the archive that is returned, or what is thrown. -/
def deliverZip (serialize : Document → Option (List UInt8))
    (renderCanonicalJson : Document → Except String (List UInt8)) (kernel : Codec.Kernel)
    (rawDeflate : List UInt8 → Option (List UInt8)) (crc32 : List UInt8 → UInt32)
    (document : Document) (exports : DocumentExports) : Except String (List UInt8) := do
  writeZip rawDeflate crc32 (← buildBundle serialize renderCanonicalJson kernel document exports)

/-- What a manifest has to say about a member. -/
def memberValue (member : Member) : Value (List ℕ) :=
  .object [(points "path", .string (member.localHeader.name.map UInt8.toNat)),
    (points "sha256", .string ((toHex (HashStandards.sha256 member.bytes)).map UInt8.toNat)),
    (points "size_bytes", .number member.bytes.length)]

/-- An archive that is delivered can be read.  Its members stand in the order of their names, none
of which is there twice, and one of them is a manifest that lists the others in this order, with
the sizes and the digests of what is read. -/
theorem deliverZip_checks {serialize : Document → Option (List UInt8)}
    {renderCanonicalJson : Document → Except String (List UInt8)} {kernel : Codec.Kernel}
    {rawDeflate inflate : List UInt8 → Option (List UInt8)} {crc32 : List UInt8 → UInt32}
    {document : Document} {exports : DocumentExports} {archive : List UInt8}
    (hinflate : ∀ data compressed, rawDeflate data = some compressed →
      inflate compressed = some data)
    (h : deliverZip serialize renderCanonicalJson kernel rawDeflate crc32 document exports =
      .ok archive) :
  ∃ reading, readArchive inflate crc32 archive = some reading ∧
    (reading.members.map fun member =>
      member.localHeader.name.map UInt8.toNat).Pairwise (· < ·) ∧
    ∃ manifest ∈ reading.members, manifest.localHeader.name = bytesOf "manifest.json" ∧
      Json.read manifest.bytes = some (.object
        [(points "files", .array ((reading.members.filter fun member =>
            member.localHeader.name ≠ manifest.localHeader.name).map memberValue)),
          (points "generator", .string (points "grparse/0.3.0")),
          (points "schema_version", .number 1)])
  := by
  obtain ⟨files, hfiles, hzip⟩ := bind_eq_ok h
  obtain ⟨encoded, rendered, manifest, hsorted, hperm, hpath, hbytes, hothers⟩ :=
    buildBundle_spec hfiles
  have hfits := writeZip_ok hzip
  rw [writeZip_eq_ok hfits] at hzip
  cases hzip
  refine ⟨_, readArchive_archiveOf hinflate hfits, ?_⟩
  have hread := @contents_eachFrom rawDeflate crc32 0 files
  generalize eachFrom rawDeflate (memberOf rawDeflate crc32) 0 files = members at hread ⊢
  subst hread
  obtain ⟨member, hmember, rfl⟩ := List.mem_map.mp (hperm.mem_iff.mpr List.mem_cons_self)
  refine ⟨?_, member, hmember, hpath, ?_⟩
  · rw [List.pairwise_map] at hsorted ⊢
    exact hsorted
  · have hvalue := read_renderManifest fun file hfile =>
      ascii_gathered _ _ _ _ _ file (hothers.mem_iff.mp hfile)
    rw [← hbytes, List.filter_map, manifestValue, List.map_map] at hvalue
    have hentry : entryValue ∘ (fun member => ⟨member.localHeader.name, member.bytes⟩) =
        memberValue := by
      funext member
      simp [entryValue, memberValue, sha256Hex, sha256_eq]
    rw [hentry] at hvalue
    exact hvalue

/-- The deflate stream of one block that is not compressed. -/
def storedBlock (data : List UInt8) : Option (List UInt8) :=
  some (1 :: put16 (.ofNat data.length) ++ put16 (~~~ .ofNat data.length) ++ data)

/-- The CRC-32 of an archive, bit by bit. -/
def bitwiseCrc (data : List UInt8) : UInt32 :=
  ~~~ data.foldl (fun crc byte => Nat.repeat
    (fun c => if c &&& 1 = 1 then c >>> 1 ^^^ 0xedb88320 else c >>> 1) 8 (crc ^^^ byte.toUInt32))
    0xffffffff

example : bitwiseCrc [0x61] = 0xe8b7be43 := by decide +kernel

/-- The archive of an empty document, whose members do not get shorter. -/
theorem deliverZip_checks_stored :
  ∃ archive reading, deliverZip (fun _ => some []) (fun _ => .ok []) Codec.plainKernel storedBlock
      bitwiseCrc {} { canonicalJson := some (bytesOf "\x7b\x7d") } = .ok archive ∧
    readArchive (fun stream => some (stream.drop 5)) bitwiseCrc archive = some reading ∧
    (reading.members.map fun member =>
      member.localHeader.name.map UInt8.toNat).Pairwise (· < ·)
  := by
  obtain ⟨archive, h⟩ : ∃ archive, deliverZip (fun _ => some []) (fun _ => .ok [])
      Codec.plainKernel storedBlock bitwiseCrc {}
      { canonicalJson := some (bytesOf "\x7b\x7d") } = .ok archive := by
    refine ⟨_, writeZip_eq_ok ⟨by decide +kernel, ?_, by decide +kernel, by decide +kernel⟩⟩
    suffices hfits : ∀ file : BundleFile, file ∈ _ → file.path.length ≤ 0xffff ∧
        file.bytes.length < 0xffffffff from
      fun file hfile => ⟨(hfits file hfile).1, (hfits file hfile).2, fun _ => rfl⟩
    decide +kernel
  have hinflate : ∀ data stream, storedBlock data = some stream →
      some (stream.drop 5) = some data := by
    intro data stream h
    cases h
    rfl
  obtain ⟨reading, hreading, hsorted, -⟩ := deliverZip_checks hinflate h
  exact ⟨archive, reading, h, hreading, hsorted⟩

end GRParse.Bundles
