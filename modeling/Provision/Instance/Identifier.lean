/-! Identifiers of instances.

An identifier is the reading of a clock, unless the clock has not moved on since the last one
was given out: then it is the number after that. So identifiers ascend, whatever the clock
does, until there is no greater number left. -/
namespace Provision.Identifier

def greatest : UInt64 := UInt64.ofNat (UInt64.size - 1)

/-- The nanoseconds since the epoch. Times before it count as the epoch itself, and times
that 64 bits have no room for as the last one they have. -/
def ofClock (reading : Int) : UInt64 :=
  UInt64.ofNat (min reading.toNat (UInt64.size - 1))

/-- The next number, if there is one. -/
def after (last : UInt64) : UInt64 :=
  if last = greatest then last else last + 1

/-- The identifier to give out after `last`. -/
def next (now last : UInt64) : UInt64 :=
  max now (after last)

end Provision.Identifier
