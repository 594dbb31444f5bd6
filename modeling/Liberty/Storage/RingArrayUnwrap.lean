import Liberty.Storage.RingArraySearches

/-!
# RING_ARRAY: unwrap

Items that go around the end of the storage are put in a row, within the same storage.  They are
moved through the free cells; where neither part of them fits there, the first of them, or the last,
wait in a temporary storage.
-/

namespace Liberty

namespace RingArray

variable {α : Type} [Inhabited α]

/-! ## The source -/

section Moves

variable {r : RingArray α} {lo hi distance : Int}

end Moves

/-! ## The four cases -/

section Cases

variable {r : RingArray α}

end Cases

end RingArray

end Liberty
