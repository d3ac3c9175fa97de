/-!
# Time in a run

The time of a run is counted in milliseconds. What happens within one of them takes turns: the
branches of a pipe begin a turn after it has started them, and it goes on a turn after one of them
has ended. So of two branches that take no time the one that waits for no others ends first. What
takes the same turn does so in the order in which it came to it, which goes back to the order in
which it fell asleep; so a time keeps every pause on the way to it, and `Time.compare` looks at them
from the last to the first.
-/

namespace Conduit

/-- A length of time: some turns at once, and the turns that follow each pause of some
milliseconds. -/
inductive Time where
  | atOnce (turns : Nat)
  | slept (before : Time) (pause turns : Nat)
  deriving DecidableEq, Repr

namespace Time

/-- No time at all. -/
def zero : Time := .atOnce 0

/-- A pause of some milliseconds; one of none is no pause. -/
def pause (ms : Nat) : Time :=
  if ms = 0 then .zero else .slept .zero ms 0

/-- The milliseconds of a length of time. -/
def ms : Time → Nat
  | atOnce _ => 0
  | slept before pause _ => before.ms + pause

/-- The turns within its last millisecond. -/
def turns : Time → Nat
  | atOnce turns => turns
  | slept _ _ turns => turns

/-- A length of time and some turns more. -/
def later (more : Nat) : Time → Time
  | atOnce turns => .atOnce (turns + more)
  | slept before pause turns => .slept before pause (turns + more)

/-- The length of two stretches of time, one after the other. -/
def followedBy (s : Time) : Time → Time
  | atOnce turns => s.later turns
  | slept before pause turns => .slept (s.followedBy before) pause turns

/-- Which of two lengths of time ends first. Those that end in the same turn came to it in the order
in which their last pauses began. -/
def compare : Time → Time → Ordering
  | atOnce m, atOnce n => Ord.compare m n
  | atOnce _, slept .. => .lt
  | slept .., atOnce _ => .gt
  | slept s p m, slept t q n =>
    (Ord.compare (s.ms + p) (t.ms + q)).then ((Ord.compare m n).then (s.compare t))

/-- Whether a length of time ends no later than another. -/
def atMost (s t : Time) : Bool :=
  (s.compare t).isLE

/-- Whether something ends within a number of milliseconds. A pause may last until their end, but no
turn is taken after it. -/
def within (limit : Nat) (t : Time) : Bool :=
  t.ms < limit || (t.ms == limit && t.turns == 0)

end Time

end Conduit
