/-
Lapis.Fs.Errno — the error numbers of errno.h that the modelled functions return.
-/
import Mathlib.Algebra.Ring.Nat
import Mathlib.Data.Int.Notation

namespace Lapis.Fs

def EOK : Int := 0
def ENOENT : Int := 2
def EBADF : Int := 9
def ECHILD : Int := 10
def ENOMEM : Int := 12
def EFAULT : Int := 14
def EBUSY : Int := 16
def EEXIST : Int := 17
def ENOTDIR : Int := 20
def EISDIR : Int := 21
def EINVAL : Int := 22
def EMFILE : Int := 24
def ENOSYS : Int := 38
def ENOTEMPTY : Int := 39
def ELOOP : Int := 40

end Lapis.Fs
