/-!
# Spans

A span is a stretch of source text, in byte offsets: from `start` up to, not including, `stop`.
-/

namespace Provision

structure Span where
  start : Nat
  stop : Nat
deriving Repr, DecidableEq, Inhabited

def Span.to (a b : Span) : Span := ⟨min a.start b.start, max a.stop b.stop⟩

end Provision
