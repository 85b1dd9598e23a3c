import Potimizer.ByteOrder
import Potimizer.UnicodeCodec

/-! The Java shared memory program: the files a run reads and writes, with the exceptions its calls
of the Java library throw. Integers in the pointer file are stored with the most significant byte
first. -/
namespace Potimizer
namespace SharedMemoryExample

open ByteOrder UnicodeCodec

/-- What outlives a process: the contents of `shared_memory.dat` and `log_pointer.dat`, each if the
file exists. -/
structure Files where
  memoryFile : Option (List UInt8)
  logPointerFile : Option (List UInt8)

def memorySize : ℕ := 1024

abbrev JavaString := List UInt16

/-- The exceptions: `readInt` past the end of a file, a position outside a buffer, and too few bytes
left in a buffer for a `put` or a `get`. -/
inductive Exception
  | eof
  | illegalArgument
  | bufferOverflow
  | bufferUnderflow
  deriving DecidableEq

/-- The scalar values of a string, with a question mark for each surrogate that is not in a pair. -/
def scalars : JavaString → List Char
  | [] => []
  | [u] => [if IsSurrogate u then '?' else unitChar u]
  | u :: w :: v =>
    if IsHigh u then
      if IsLow w then pairChar u w :: scalars v else '?' :: scalars (w :: v)
    else if IsLow u then '?' :: scalars (w :: v)
    else unitChar u :: scalars (w :: v)

/-- `String.getBytes` where the default charset is UTF-8. -/
def getBytes (data : JavaString) : List UInt8 := utf8Encode (scalars data)

def intBytes (n : Int32) : List UInt8 := (lowBytes 4 n.toUInt32.toNat).reverse

def getInt (content : List UInt8) : Int32 :=
  (UInt32.ofNat (value (content.take 4).reverse)).toInt32

def putInt (content : List UInt8) (n : Int32) : List UInt8 := intBytes n ++ content.drop 4

def readInt (content : List UInt8) : Except Exception Int32 :=
  if 4 ≤ content.length then .ok (getInt content) else .error .eof

def initializeOrRecoverLogPointer (files : Files) : Except Exception Int32 :=
  match files.logPointerFile with
  | some content => readInt content
  | none => .ok 0

/-- Mapping a range past the end of a file extends the file with zeros. -/
def extend (size : ℕ) (content : List UInt8) : List UInt8 :=
  content ++ List.replicate (size - content.length) 0

def mapSharedMemory (files : Files) : Files :=
  { files with memoryFile := some (extend memorySize (files.memoryFile.getD [])) }

def position (logPointer : Int32) : Except Exception ℕ :=
  if 0 ≤ logPointer.toInt ∧ logPointer.toInt ≤ memorySize then .ok logPointer.toInt.toNat
  else .error .illegalArgument

def written (memory : List UInt8) (position : ℕ) (bytes : List UInt8) : List UInt8 :=
  memory.take position ++ bytes ++ memory.drop (position + bytes.length)

/-- Put bytes into the buffer from a position on; what does not fit is not put at all. -/
def put (memory : List UInt8) (position : ℕ) (bytes : List UInt8) :
    Except Exception (List UInt8) :=
  if position + bytes.length ≤ memorySize then .ok (written memory position bytes)
  else .error .bufferOverflow

/-- `sharedMemory.position(logPointer); sharedMemory.put(data.getBytes())`. -/
def copy (logPointer : Int32) (data : JavaString) (files : Files) : Except Exception Files := do
  let position ← position logPointer
  let memory ← put (files.memoryFile.getD []) position (getBytes data)
  return { files with memoryFile := some memory }

/-- Open the pointer file, creating it if it is absent, and map its first 4 bytes. -/
def mapLogPointer (files : Files) : Files :=
  { files with logPointerFile := some (extend 4 (files.logPointerFile.getD [])) }

def nextPointer (dataLength : Int32) (files : Files) : Int32 :=
  getInt (files.logPointerFile.getD []) + dataLength

def storePointer (next : Int32) (files : Files) : Files :=
  { files with logPointerFile := some (putInt (files.logPointerFile.getD []) next) }

def updateLogPointer (dataLength : Int32) (files : Files) : Files :=
  let files := mapLogPointer files
  storePointer (nextPointer dataLength files) files

/-- `int` arguments of a length: no string is longer than an `int` counts. -/
def lengthInt (data : JavaString) : Int32 := Int32.ofNat data.length

def readBack (data : JavaString) : Except Exception Unit :=
  if data.length ≤ memorySize then .ok () else .error .bufferUnderflow

/-- How a run ends, and the files it leaves. An exception of the recovery is caught in `main`, the
others leave it. -/
def main (data : JavaString) (files : Files) : Except Exception Unit × Files :=
  match initializeOrRecoverLogPointer files with
  | .error e => (.error e,files)
  | .ok logPointer =>
    let mapped := mapSharedMemory files
    match copy logPointer data mapped with
    | .error e => (.error e,mapped)
    | .ok copied => (readBack data,updateLogPointer (lengthInt data) copied)

def helloSharedMemory : JavaString :=
  "Hello, Shared Memory!".toList.map fun c => UInt16.ofNat c.toNat

section Pointer

variable {content : List UInt8} {n : Int32}

@[simp] theorem length_intBytes (n : Int32) : (intBytes n).length = 4 := by
  simp [intBytes]

@[simp] theorem getInt_putInt (content : List UInt8) (n : Int32) :
    getInt (putInt content n) = n := by
  have hlt := n.toUInt32.toNat_lt
  have htake : (putInt content n).take 4 = intBytes n := List.take_left' (length_intBytes n)
  rw [getInt,htake,intBytes,List.reverse_reverse,value_lowBytes,Nat.mod_eq_of_lt (by omega),
    UInt32.ofNat_toNat,Int32.toInt32_toUInt32]

theorem readInt_of_le (h : 4 ≤ content.length) : readInt content = .ok (getInt content) := if_pos h

theorem readInt_putInt (content : List UInt8) (n : Int32) : readInt (putInt content n) = .ok n := by
  rw [readInt_of_le (by simp [putInt]),getInt_putInt]

theorem extend_of_le {size : ℕ} (h : size ≤ content.length) : extend size content = content := by
  simp [extend,Nat.sub_eq_zero_of_le h]

theorem length_extend (size : ℕ) (content : List UInt8) : size ≤ (extend size content).length := by
  simp only [extend,List.length_append,List.length_replicate]
  omega

theorem initializeOrRecoverLogPointer_mapLogPointer {files : Files}
    (h : initializeOrRecoverLogPointer files = .ok n) :
    (mapLogPointer files).logPointerFile = some (extend 4 (files.logPointerFile.getD [])) ∧
      getInt (extend 4 (files.logPointerFile.getD [])) = n := by
  refine ⟨rfl,?_⟩
  unfold initializeOrRecoverLogPointer at h
  cases hfile : files.logPointerFile with
  | none =>
    simp only [hfile,Except.ok.injEq] at h
    exact h
  | some content =>
    simp only [hfile,readInt] at h
    split_ifs at h with hle
    rw [Option.getD_some,extend_of_le hle]
    exact Except.ok.inj h

end Pointer

section Memory

variable {memory bytes : List UInt8} {a : ℤ} {position i : ℕ}

def byteAt (memory : List UInt8) (a : ℤ) : UInt8 := if 0 ≤ a then memory[a.toNat]?.getD 0 else 0

@[simp] theorem byteAt_extend (size : ℕ) (memory : List UInt8) (a : ℤ) :
    byteAt (extend size memory) a = byteAt memory a := by
  unfold byteAt extend
  split_ifs with ha
  · by_cases hlt : a.toNat < memory.length
    · rw [List.getElem?_append_left hlt]
    · rw [List.getElem?_append_right (by omega),List.getElem?_replicate,
        List.getElem?_eq_none (by omega)]
      split_ifs <;> rfl
  · rfl

theorem put_of_le (h : position + bytes.length ≤ memorySize) :
    put memory position bytes = .ok (written memory position bytes) := if_pos h

theorem copy_of_le {p : Int32} {data : JavaString} (hnonneg : 0 ≤ p.toInt)
    (hlimit : p.toInt + (getBytes data).length ≤ memorySize) (files : Files) :
    copy p data files = .ok
      ⟨some (written (files.memoryFile.getD []) p.toInt.toNat (getBytes data)),
        files.logPointerFile⟩ := by
  have hposition : SharedMemoryExample.position p = .ok p.toInt.toNat :=
    if_pos ⟨hnonneg,by omega⟩
  have hput : put (files.memoryFile.getD []) p.toInt.toNat (getBytes data) =
      .ok (written (files.memoryFile.getD []) p.toInt.toNat (getBytes data)) := put_of_le (by omega)
  unfold copy
  rw [hposition]
  change (put (files.memoryFile.getD []) p.toInt.toNat (getBytes data)).bind _ = _
  rw [hput]
  rfl

theorem getElem?_written (hmemory : position ≤ memory.length) (hi : i < bytes.length) :
    (written memory position bytes)[position+i]? = some bytes[i] := by
  have htake : (memory.take position).length = position := List.length_take_of_le hmemory
  rw [written,List.getElem?_append_left (by rw [List.length_append,htake]; omega),
    List.getElem?_append_right (by omega),htake,Nat.add_sub_cancel_left,List.getElem?_eq_getElem hi]

theorem getElem?_written_of_lt (hmemory : position ≤ memory.length) {j : ℕ} (hj : j < position) :
    (written memory position bytes)[j]? = memory[j]? := by
  have htake : (memory.take position).length = position := List.length_take_of_le hmemory
  rw [written,List.append_assoc,List.getElem?_append_left (by omega),List.getElem?_take_of_lt hj]

theorem getElem?_written_of_ge (hmemory : position ≤ memory.length) {j : ℕ}
    (hj : position + bytes.length ≤ j) : (written memory position bytes)[j]? = memory[j]? := by
  have htake : (memory.take position).length = position := List.length_take_of_le hmemory
  have hlength : (memory.take position ++ bytes).length = position + bytes.length := by
    rw [List.length_append,htake]
  have hindex : position + bytes.length + (j - (position + bytes.length)) = j := by omega
  rw [written,List.getElem?_append_right (by omega),hlength,List.getElem?_drop,hindex]

theorem byteAt_written (hmemory : position ≤ memory.length) (hi : i < bytes.length) :
    byteAt (written memory position bytes) (position + i) = bytes[i] := by
  have hindex : ((position : ℤ) + i).toNat = position + i := by omega
  rw [byteAt,if_pos (by omega),hindex,getElem?_written hmemory hi,Option.getD_some]

theorem byteAt_written_of_lt (hmemory : position ≤ memory.length) (ha : a < position) :
    byteAt (written memory position bytes) a = byteAt memory a := by
  unfold byteAt
  split_ifs with hnonneg
  · rw [getElem?_written_of_lt hmemory (by omega)]
  · rfl

theorem byteAt_written_of_ge (hmemory : position ≤ memory.length)
    (ha : position + bytes.length ≤ a) :
    byteAt (written memory position bytes) a = byteAt memory a := by
  rw [byteAt,byteAt,if_pos (by omega),if_pos (by omega),getElem?_written_of_ge hmemory (by omega)]

end Memory

end SharedMemoryExample
end Potimizer
