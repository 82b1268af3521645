-- The identifiers that every layer shares, and the sizes of the configuration.
import Mathlib.Logic.Function.Basic
import Mathlib.Algebra.Order.Ring.Nat

namespace duck

/-- A page id of the source, which is either the number of a page or `INVALID_PAGE_ID`. -/
abbrev PageID := Option Nat

def INVALID_PAGE_ID : PageID := none

instance (page_id : PageID) (page_ids : List PageID) : Decidable (page_id ∈ page_ids) := inferInstance

abbrev FrameID := Nat

abbrev TransactionID := Nat

/-- The address of a tuple: a page and a slot of its directory. -/
structure RID where
  page_id : PageID
  slot_num : Nat
  deriving DecidableEq

def kPAGE_SIZE : Nat := 8192

def kDISK_METADATA_PAGE_ID : PageID := some 0

def kCATALOG_FIRST_PAGE_ID : PageID := some 1

end duck
