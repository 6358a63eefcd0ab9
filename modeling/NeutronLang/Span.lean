/-!
# Spans

The range of a document that a token, a node or a problem belongs to, in characters.
-/

namespace NeutronLang

/-- A half-open range of character offsets; by `ordered` it never ends before it starts. -/
structure Span where
  start : Int
  stop : Int
  start_le_stop : start ≤ stop := by omega
deriving DecidableEq

namespace Span

/-- The span from `start` to `stop`; it is empty if the second lies before the first. -/
def between (start stop : Int) : Span where
  start := start
  stop := max start stop

/-- The empty span at `offset`. -/
def point (offset : Int) : Span where
  start := offset
  stop := offset

/-- `between` two offsets starts at the first. -/
@[simp] theorem between_start (start stop : Int) : (between start stop).start = start := rfl

/-- `between` two offsets ends at the second, or at its start if that is later. -/
@[simp] theorem between_stop (start stop : Int) : (between start stop).stop = max start stop := rfl

/-- `between` two offsets in order ends at the second. -/
theorem between_stop_of_le {start stop : Int} (h : start ≤ stop) :
    (between start stop).stop = stop := by simp; omega

/-- A span as messages write it. -/
def text (span : Span) : String := s!"{span.start}..{span.stop}"

end Span

end NeutronLang
