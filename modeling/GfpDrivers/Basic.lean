import Mathlib.Algebra.Ring.Int.Defs
import Mathlib.Algebra.Ring.Nat
import Mathlib.Data.List.Basic

/-!
What the modelled drivers share: pointers and the error numbers of
`errno.h`.
-/

namespace GfpDrivers

/-- The value of a C pointer; `0` is `NULL`. -/
abbrev Ptr := ℕ

instance neZeroTwo : NeZero 2 := ⟨by decide⟩
instance neZeroThree : NeZero 3 := ⟨by decide⟩

def EPERM : ℤ := 1
def ENOENT : ℤ := 2
def EIO : ℤ := 5
def ENXIO : ℤ := 6
def ENOMEM : ℤ := 12
def EBUSY : ℤ := 16
def EEXIST : ℤ := 17
def ENODEV : ℤ := 19
def EINVAL : ℤ := 22
def ENOSPC : ℤ := 28
def ENOBUFS : ℤ := 105
def ESHUTDOWN : ℤ := 108
def ETIMEDOUT : ℤ := 110
def EINPROGRESS : ℤ := 115
def EPROBE_DEFER : ℤ := 517
def ENOTSUPP : ℤ := 524

end GfpDrivers
