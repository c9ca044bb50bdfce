import Mathlib
import Quoin.Trans.Insertion

/-!
# Quoin — the VM of a list's methods

What the native methods of List use of the VM: sends. A send may raise, and it
may change anything, the elements of the receiver too.
-/

namespace Quoin.Lists

/-- Values and sends, as a native method sees them. A send finds the elements of the list and the
rest of the VM's state, and leaves others. -/
structure Host (V R E : Type) where
  isNil : V → Bool
  /-- `is_true`. -/
  isTrue : V → Bool
  /-- How many parameters a block has. -/
  arity : V → Nat
  send : V → String → List V → List V × R → Except E V × (List V × R)

inductive QuoinError (E : Type) where
  | valueError (msg : String)
  | raised (e : E)
  deriving DecidableEq

end Quoin.Lists
