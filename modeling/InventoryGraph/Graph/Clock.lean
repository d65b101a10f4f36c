/-!
The clock of a process and its source of identifiers. The clock is read in microseconds since
the Unix epoch, and its readings are whatever the system gives: it may stand still or go back.
Resource versions come from one counter of the process, which a rolled-back transaction does
not set back: each version is the reading, or one past the last version when the reading is
not past it. The counter is unbounded here; a 64-bit one reaches its bound only after more
than 2^63 versions past a 64-bit reading. Identifiers are drawn from the source in order.
-/
namespace InventoryGraph

structure Clock where
  readings : Nat → Int
  uuids : Nat → String
  taken : Nat := 0
  drawn : Nat := 0
  last : Nat := 0

namespace Clock

def read (c : Clock) : Int × Clock := (c.readings c.taken, { c with taken := c.taken + 1 })

def draw (c : Clock) : String × Clock := (c.uuids c.drawn, { c with drawn := c.drawn + 1 })

/-- Issues the next resource version: the reading, taken as zero when negative, or one past
    the last version when the reading is not past it. -/
def issue (c : Clock) : Nat × Clock :=
  let n := max (c.readings c.taken).toNat (c.last + 1)
  (n, { c with taken := c.taken + 1, last := n })

@[simp] theorem read_last (c : Clock) : c.read.2.last = c.last := rfl

@[simp] theorem draw_last (c : Clock) : c.draw.2.last = c.last := rfl

@[simp] theorem issue_last (c : Clock) : c.issue.2.last = c.issue.1 := rfl

theorem last_lt_issue (c : Clock) : c.last < c.issue.1 :=
  Nat.lt_of_lt_of_le (Nat.lt_succ_self _) (Nat.le_max_right _ _)

def hexDigits (width n : Nat) : String :=
  let ds := Nat.toDigits 16 n
  String.ofList (List.replicate (width - ds.length) '0' ++ ds)

/-- A clock that reads one microsecond later each time, from `origin` on, with a source of
    version-4 UUIDs numbered from 1 under an eight-digit tag. -/
def steady (origin : Nat) (tag : String) : Clock where
  readings n := (origin + n + 1 : Nat)
  uuids n := tag ++ "-4b7d-4e38-9a05-" ++ hexDigits 12 (n + 1)

end Clock
end InventoryGraph
