/-!
# Variable ids

A variable that is looked up by name carries the CRC-32 of its name (the reflected polynomial
`0xEDB88320`, as in IEEE 802.3). The checksum is computed a byte at a time with a table of 256
entries, each of which is eight steps of the bit-serial register.
-/

namespace GoTrees.VariableId

/-- The reflected generator polynomial. -/
def polynomial : UInt32 := 0xEDB88320

/-- One step of the bit-serial register: shift right, and add the polynomial when a one falls out. -/
def shift (r : UInt32) : UInt32 :=
  if r &&& 1 = 0 then r >>> 1 else (r >>> 1) ^^^ polynomial

/-- Eight steps of the bit-serial register. -/
def shift8 (r : UInt32) : UInt32 :=
  shift (shift (shift (shift (shift (shift (shift (shift r)))))))

/-- What eight steps make of each value of the low byte. -/
def table : Vector UInt32 256 := .ofFn fun i => shift8 (.ofNat i.val)

/-- Takes one byte into the register. -/
def step (r : UInt32) (byte : UInt8) : UInt32 :=
  table.get (Fin.ofNat 256 (r ^^^ byte.toUInt32).toNat) ^^^ (r >>> 8)

/-- The checksum of a list of bytes: from the all-ones register, complemented at the end. -/
def ofBytes (bytes : List UInt8) : UInt32 :=
  ~~~ (bytes.foldl step 0xFFFFFFFF)

/-- The id of a name: the checksum of its UTF-8 bytes. -/
def ofName (name : String) : UInt32 := ofBytes name.toUTF8.toList

end GoTrees.VariableId
