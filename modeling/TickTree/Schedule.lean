/-
# The schedule of a ticker

A ticker ticks once per period. After the tick that was scheduled for one time
and started at another, the next one is scheduled a period later, as long as
the tick was at most `tolerance` late. After a later start the configuration
decides: catch up with every missed tick (burst), count the period from the
late start (delay), or drop the missed ticks and keep to the multiples of the
period (skip).

Times are numbers of one unit, which may be as fine as the clock; the defaults
are those for milliseconds. No time is too large: that a sum of times overflows
is left out.

Key definitions: `Missed`, `TickerConfig`, `TickerConfig.next`.
-/

namespace TickTree

/-- What becomes of ticks whose time has passed. -/
inductive Missed where
  | burst
  | delay
  | skip
  deriving DecidableEq, Repr, Inhabited

/-- The configuration of a ticker. -/
structure TickerConfig where
  period : Nat := 10
  missed : Missed := .skip
  /-- How late a tick may start without counting as late. No user sets this: it
  is five milliseconds, in the unit of the other times. -/
  tolerance : Nat := 5
  deriving DecidableEq, Repr, Inhabited

namespace TickerConfig

/-- The default configuration with another period. -/
def withPeriod (period : Nat) : TickerConfig := { period }

/-- The time of the tick after the one that was scheduled for `due` and started
at `now`. -/
def next (c : TickerConfig) (due now : Nat) : Nat :=
  if now ≤ due + c.tolerance then due + c.period
  else match c.missed with
    | .burst => due + c.period
    | .delay => now + c.period
    | .skip => now + c.period - (now - due) % c.period

end TickerConfig
end TickTree
