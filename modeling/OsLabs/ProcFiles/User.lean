/-
# What the two modules with a page-sized buffer share

`6/fortunka/fortune.c` and `6/seq_files/single_file.c` copy what user space writes into a buffer
of one page, after the same test `len > SIZE - index + 1`, in which `PAGE_SIZE` makes the
arithmetic that of `unsigned long`.
-/
import OsLabs.Lib.Buffer

namespace OsLabs.Kernel

def PAGE_SIZE : Nat := 4096

def ENOSPC : Int := 28

def EFAULT : Int := 14

/-- One `copy_from_user` of `bytes.length` bytes: what it leaves in the destination, and whether
it returns 0.  When it fails any bytes may stand in the destination range.  A copy of no bytes
leaves none uncopied. -/
structure UserCopy where
  bytes : List UInt8
  ok : Bool
  ok_of_empty : bytes = [] → ok = true

/-- `len`, the size of the write. -/
def UserCopy.len (buf : UserCopy) : Nat := buf.bytes.length

/-- A copy that succeeds. -/
def UserCopy.of (bytes : List UInt8) : UserCopy := ⟨bytes, true, fun _ => rfl⟩

theorem UserCopy.ok_of_len {buf : UserCopy} (h : buf.len = 0) : buf.ok = true :=
  buf.ok_of_empty (List.length_eq_zero_iff.mp h)

/-- `PAGE_SIZE - index + 1`, computed in `unsigned long`. -/
def room (index : Int) : Nat := ((PAGE_SIZE - index + 1) % 2 ^ 64).toNat

theorem room_eq {index : Int} (h : 0 ≤ index) (hle : index ≤ PAGE_SIZE) :
    (room index : Int) = PAGE_SIZE - index + 1 := by
  unfold room PAGE_SIZE at *
  omega

end OsLabs.Kernel
