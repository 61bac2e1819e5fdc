import Mathlib

/-!
# Types shared by the DAOS modules (`include/daos_types.h`)
-/

namespace Daos

/-- `daos_epoch_range_t`. -/
structure DaosEpochRange where
  eprLo : ℕ
  eprHi : ℕ
deriving DecidableEq, Repr

/-- `DAOS_EPOCH_MAX`. -/
def daosEpochMax : ℕ := 2 ^ 64 - 1

end Daos
