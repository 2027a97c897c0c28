/-!
# Error numbers

The values of `errno` that the modelled calls set. A negative answer of the host goes there as it is.
-/

namespace Zrt

inductive Errno where
  | eperm | enoent | ebadf | enomem | eacces | ebusy | eexist | enotdir | eisdir | einval | enfile
  | espipe | enametoolong | enosys | enotempty | eoverflow
  | host (answer : Int)
deriving DecidableEq, Repr

end Zrt
