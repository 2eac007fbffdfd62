/-!
# Spans

A stretch of the source, as byte offsets into its UTF-8 form.
-/

namespace ClosureEnv.Syntax

/-- A stretch of the source: the offset of its first byte and the offset after its last. -/
structure Span where
  /-- The offset of the first byte. -/
  start : Nat
  /-- The offset after the last byte. -/
  stop : Nat
  deriving DecidableEq, Repr, Inhabited

/-- From the start of one span to the end of another. -/
def Span.to (a b : Span) : Span :=
  ⟨a.start, b.stop⟩

/-- The span as messages write it. -/
def Span.describe (s : Span) : String :=
  "Span \x7b start: " ++ toString s.start ++ ", end: " ++ toString s.stop ++ " \x7d"

end ClosureEnv.Syntax
