import SchemaDoc.Proofs.Log.Line

/-!
# What a threshold lets through

A stream is written line by line, and the severity of a line can be read off its object. So whoever
has the lines that are written at the lowest threshold has those of any other: they are the ones
whose severity passes it, in the same order.
-/

namespace SchemaDoc

namespace Severity

/-- The name of a severity names it. -/
theorem ofName?_name (s : Severity) : ofName? s.name = some s := by
  cases s <;> decide

end Severity

namespace Log

/-! ## Lines -/

/-- The lines of a stream, each with the line feed at its end. What stands behind the last line feed
is one more. -/
def lines : Bytes → List Bytes
  | [] => []
  | b :: bs =>
    if b = 0x0A then [b] :: lines bs
    else
      match lines bs with
      | [] => [[b]]
      | line :: rest => (b :: line) :: rest

attribute [ext] Output

instance : Append Output := ⟨fun a b ↦ ⟨a.standard ++ b.standard, a.failures ++ b.failures⟩⟩

end Log

end SchemaDoc
