import Zippity.Structs
import Zippity.Framework.Exec

/-! # Sizes of the headers

    The size functions of `builder.rs`: what an entry adds to the archive in
    front of and behind its data and in the central directory, and the size of
    the end of the archive.  Their sums are in `u64`.
-/

namespace Zippity

open Framework Exec

/-- `local_header_size`: the local header, its extra field and name, and the data descriptor. -/
def localHeaderSize (name : Name) : Exec Nat := do
  let size ← addU64 (packedSize LocalFileHeader) (packedSize Zip64ExtraField)
  let size ← addU64 size name.length
  addU64 size (packedSize DataDescriptor64)

/-- `cd_header_size`: the central directory header, its extra field and name. -/
def cdHeaderSize (name : Name) : Exec Nat := do
  let size ← addU64 (packedSize CentralDirectoryHeader) (packedSize Zip64ExtraField)
  addU64 size name.length

/-- `eocd_size`: the zip64 record, the zip64 locator and the end of central directory. -/
def eocdSize : Exec Nat := do
  let size ← addU64 (packedSize Zip64EndOfCentralDirectoryRecord)
    (packedSize Zip64EndOfCentralDirectoryLocator)
  addU64 size (packedSize EndOfCentralDirectory)

theorem localHeaderSize_eq {name : Name} (h : name.length < 65536) :
    localHeaderSize name = .ok (82 + name.length) := by
  unfold localHeaderSize
  rw [addU64_eq (by decide), ok_bind, addU64_eq (by simp [u64Bound]; omega), ok_bind,
    addU64_eq (by simp [u64Bound]; omega)]
  simp only [packedSize_localFileHeader, packedSize_zip64ExtraField, packedSize_dataDescriptor64]
  congr 1
  omega

theorem cdHeaderSize_eq {name : Name} (h : name.length < 65536) :
    cdHeaderSize name = .ok (74 + name.length) := by
  unfold cdHeaderSize
  rw [addU64_eq (by decide), ok_bind, addU64_eq (by simp [u64Bound]; omega)]
  rfl

theorem eocdSize_eq : eocdSize = .ok 98 := by decide

end Zippity
