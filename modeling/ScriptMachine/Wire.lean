import ScriptMachine.BitSet

/-!
# Wire format

The bytes under which values, registers and sets are logged. Every item starts with a byte that
holds a tag in its upper bits and a number or a code for the width of the number in its lower five.
-/

namespace ScriptMachine.Wire

inductive Tag where
  | int | string | array
deriving DecidableEq, Repr

def Tag.bits : Tag → Nat
  | int => 0x00
  | string => 0x60
  | array => 0x80

def nil : List UInt8 := [0xf6]

/-- The `width` low bytes of `n`, most significant first. -/
def bigEndian : (width n : Nat) → List UInt8
  | 0, _ => []
  | w + 1, n => bigEndian w (n / 256) ++ [UInt8.ofNat n]

/-- A tag with a number: in the first byte if it is below 24, else in the bytes after it. -/
def head (t : Tag) (n : Nat) : List UInt8 :=
  let first (code : Nat) := UInt8.ofNat (t.bits + code)
  if n < 24 then [first n]
  else if n < 1 <<< 8 then first 24 :: bigEndian 1 n
  else if n < 1 <<< 16 then first 25 :: bigEndian 2 n
  else if n < 1 <<< 32 then first 26 :: bigEndian 4 n
  else first 27 :: bigEndian 8 n

def ofString (s : String) : List UInt8 := head .string s.utf8ByteSize ++ s.toUTF8.toList

/-- An array of unknown length around its items. -/
def openArray (items : List (List UInt8)) : List UInt8 :=
  UInt8.ofNat (Tag.array.bits + 31) :: (items.flatten ++ [0xff])

def ofValue (v : Value) : List UInt8 :=
  match v with
  | .unset => nil
  | v => ofString v.render

def ofReg (r : Reg) : List UInt8 :=
  if r = Reg.none then nil else ofString r.render

def ofBitSet (s : BitSet) : List UInt8 :=
  if s.allocated then openArray (s.toList.map (head .int)) else nil

end ScriptMachine.Wire
