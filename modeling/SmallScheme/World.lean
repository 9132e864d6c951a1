import SmallScheme.Store.Environment
import SmallScheme.Store.External

/-! # The world of a program

A store and the output written so far. Output is refused once its sink is full; a refused text leaves
nothing behind.
-/

namespace SmallScheme

structure Output where
  text : String
  /-- Whether the sink takes no more characters. -/
  full : Bool

namespace Output

def empty : Output := ⟨"", false⟩

def refusal : String := "No space left on device (os error 28)"

/-- Writes a text, or says why it cannot be written. The empty text always can. -/
def write (out : Output) (text : String) : Except String Unit × Output :=
  if out.full && text != "" then (.error refusal, out)
  else (.ok (), { out with text := out.text ++ text })

theorem write_error {out out' : Output} {text reason : String}
    (h : out.write text = (.error reason, out')) : out' = out := by
  unfold write at h
  split at h <;> cases h
  rfl

end Output

structure World where
  store : Store
  output : Output

namespace World

/-- Output from here on is kept apart from what was written before. -/
def withoutOutput (w : World) : World := { w with output := { w.output with text := "" } }

end World

end SmallScheme
