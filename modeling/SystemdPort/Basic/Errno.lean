/-
# Basic.Errno — error numbers

The error numbers that modelled code tells apart, and the groups of them that
`src/basic/errno-util.h` defines.
-/
import Mathlib.Init

namespace SystemdPort.Basic

set_option autoImplicit false

inductive Errno where
  | eperm | einval | eopnotsupp | enotty | enosys | eafnosupport | epfnosupport
  | eprotonosupport | esocktnosupport | eacces | enoent | efault | enomem | erange | enxio | ebadmsg
  | ebusy | estale | enomsg | enobufs | e2big | emsgsize | enametoolong | eexist | enospc | efbig
  | other (n : Nat)
  deriving DecidableEq

namespace Errno

/-- `ERRNO_IS_NOT_SUPPORTED()` -/
def isNotSupported : Errno → Bool
  | eopnotsupp | enotty | enosys | eafnosupport | epfnosupport | eprotonosupport | esocktnosupport =>
    true
  | _ => false

/-- `ERRNO_IS_PRIVILEGE()` -/
def isPrivilege : Errno → Bool
  | eacces | eperm => true
  | _ => false

end Errno

end SystemdPort.Basic
