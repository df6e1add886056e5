import PjhJson.LibProbe
import PjhJson.Number

/-! The parser's `KeyIndex`: an open-addressing table from the keys of one object under construction
to the positions of their entries. The entries themselves are passed in as the list of their keys. -/

namespace PjhJson

/-- `kKeyIndexThreshold`. -/
def kKeyIndexThreshold : Nat := 256

/-- The slots hold positions plus one; `mCount` of them are occupied. -/
structure KeyIndex where
  slots : List Nat
  mask : Nat
  count : Nat
  deriving DecidableEq, Repr

namespace KeyIndex

variable (platform : Platform)

/-- The first slot of a key. -/
def home (mask : Nat) (key : Bytes) : Nat := platform.keyHash key &&& mask

/-- An empty table: `m_slots.assign(cap, 0)`. -/
def assign (cap : Nat) : KeyIndex := { slots := List.replicate cap 0, mask := cap - 1, count := 0 }

/-- `insert_slot`: the keys are known to be different, so none is compared. -/
def insertSlot (keys : List Bytes) (index : KeyIndex) (pos : Nat) : Option KeyIndex := do
  let key ← keys[pos]?
  let slot ← Probe.walkFree index.slots index.mask index.slots.length (home platform index.mask key)
  some { index with slots := index.slots.set slot (pos + 1), count := index.count + 1 }

/-- `build`. -/
def build (keys : List Bytes) : Option KeyIndex :=
  (List.range keys.length).foldlM (insertSlot platform keys)
    (assign (Probe.doubleUntil (keys.length * 4) (keys.length * 4) 16))

/-- The positions that a table holds, in slot order. -/
def positions (index : KeyIndex) : List Nat := (index.slots.filter (· ≠ 0)).map (· - 1)

/-- `grow`. -/
def grow (keys : List Bytes) (index : KeyIndex) : Option KeyIndex :=
  index.positions.foldlM (insertSlot platform keys) (assign (index.slots.length * 2))

/-- `find_or_insert`: the position of the entry with the key, or the position that the entry
appended next will have, which is stored at once. -/
def findOrInsert (keys : List Bytes) (key : Bytes) (index : KeyIndex) :
    Option (Nat × KeyIndex) := do
  let outcome ← Probe.walk (keys[·]?) key index.slots index.mask index.slots.length
    (home platform index.mask key)
  match outcome with
  | .found pos => some (pos, index)
  | .free slot =>
    let (index, slot) ←
      if index.slots.length < (index.count + 1) * 2 then do
        let index ← grow platform keys index
        let slot ← Probe.walkFree index.slots index.mask index.slots.length
          (home platform index.mask key)
        some (index, slot)
      else some (index, slot)
    some (keys.length,
      { index with slots := index.slots.set slot (keys.length + 1), count := index.count + 1 })

end KeyIndex
end PjhJson
