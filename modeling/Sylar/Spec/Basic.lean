import Mathlib.Data.List.Basic
import Mathlib.Tactic

/-! What the modelled code can fail with. The first two are exceptions, which
the caller may catch; the others end the program or have no defined meaning. -/

namespace Sylar

inductive Fault where
  | outOfRange (what : String)
  | logicError (what : String)
  | assertFailed
  | nullDeref
  | outOfBounds
  | undefined
deriving DecidableEq, Repr

end Sylar
