import Mathlib.Data.Int.Notation

/-!
# Error numbers of Linux

What a call returns negated when it fails (`asm-generic/errno-base.h`, `linux/errno.h`).
-/

namespace Jz2440.Common

def EINTR : ℤ := 4
def ENXIO : ℤ := 6
def EAGAIN : ℤ := 11
def ENOMEM : ℤ := 12
def EFAULT : ℤ := 14
def EINVAL : ℤ := 22
def ERESTARTSYS : ℤ := 512

end Jz2440.Common
