/-!
# Handles

A handle names a string by the number of its slot. It stays good while the pool grows, for it is a
number and no address. Programs that hold handles in signed words pass them as such: a negative
word names no handle, and a handle too large for a signed word is shown as the negative word of the
same bits.
-/

namespace TextPool

/-- The number of a slot. -/
structure Handle where
  index : Nat
  deriving DecidableEq

namespace Handle

/-- The handle of the empty string, which is always there. -/
def empty : Handle := ⟨0⟩

/-- The handle that a signed word names. -/
def ofRaw? (raw : Int64) : Option Handle :=
  if raw < 0 then none else some ⟨raw.toNatClampNeg⟩

/-- The signed word with the low 64 bits of a handle. -/
def toRaw (handle : Handle) : Int64 :=
  Int64.ofNat handle.index

def text (handle : Handle) : String :=
  s!"#{handle.index}"

end Handle

/-- The handles from `first` up to, and not including, `stop`. -/
structure HandleRange where
  first : Handle
  stop : Handle
  deriving DecidableEq

end TextPool
