import Mathlib.Data.BitVec

/-!
# What `kernel/mutex.c` goes by (`mutex.h`, `atomic.h`)

The same on every architecture.
-/

set_option autoImplicit false

namespace Timix.Mutex

/-- `XCHG_SUCCESS`: `atomic_swap_conditional` has stored the new value. -/
def XCHG_SUCCESS : BitVec 32 := 0

/-- `MUTEX_OWNER_UNLOCKED`, that is `NULL`. -/
def MUTEX_OWNER_UNLOCKED : BitVec 32 := 0

/-- `mutex_trylock` has found the mutex taken. -/
def MUTEX_DONT_GOT_IT : Int := 0

/-- `mutex_trylock` has taken the mutex. -/
def MUTEX_GOT_IT : Int := 1

end Timix.Mutex
