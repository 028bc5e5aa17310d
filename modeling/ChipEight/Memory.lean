import ChipEight.Cells
import ChipEight.Fault
import ChipEight.Font

/-!
The addressable memory. A range is read or written only if it lies in memory as a whole; the
fault names the address where the range starts.
-/

namespace ChipEight

abbrev Memory := Vector UInt8 memorySize

namespace Memory

/-- The memory before a program is loaded: the font and then zeros. -/
def blank : Memory :=
  Cells.overwrite (Vector.replicate memorySize 0) 0 Font.sheet

def slice (memory : Memory) (start count : Nat) : Except Fault (List UInt8) :=
  if _ : start + count ≤ memorySize then
    .ok (List.ofFn fun k : Fin count => memory[start + k.val])
  else
    .error (.memoryOutOfBounds start)

def store (memory : Memory) (start : Nat) (bytes : List UInt8) : Except Fault Memory :=
  if start + bytes.length ≤ memorySize then
    .ok (Cells.overwrite memory start bytes)
  else
    .error (.memoryOutOfBounds start)

def word (memory : Memory) (start : Nat) : Except Fault Word :=
  if _ : start + 2 ≤ memorySize then
    .ok (.ofBytes memory[start] memory[start + 1])
  else
    .error (.memoryOutOfBounds start)

theorem length_of_slice {memory : Memory} {start count : Nat} {bytes : List UInt8}
    (h : memory.slice start count = .ok bytes) : bytes.length = count := by
  unfold slice at h
  split at h
  · cases h
    exact List.length_ofFn
  · cases h

/-- What was stored is read back. -/
theorem slice_store {memory written : Memory} {start : Nat} {bytes : List UInt8}
    (h : memory.store start bytes = .ok written) :
    written.slice start bytes.length = .ok bytes := by
  unfold store at h
  split at h
  · rename_i hb
    cases h
    simp only [slice, hb, ↓reduceDIte]
    congr 1
    apply List.ext_getElem
    · simp
    · intro k _ _
      simp [Cells.getElem_overwrite]
  · cases h

end Memory
end ChipEight
