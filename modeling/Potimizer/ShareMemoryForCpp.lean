import Potimizer.ByteOrder

/-! The C++ shared memory program: what a run does to the pointer file and the shared memory, as
the sequence of its durable effects. -/
namespace Potimizer
namespace ShareMemoryForCpp

open ByteOrder

/-- A string as `strlen` sees it: no byte of it is zero. -/
structure CString where
  bytes : List UInt8
  noNul : 0 ∉ bytes

def CString.strlen (data : CString) : ℕ := data.bytes.length

/-- What outlives a process: the pointer file if there is one, and the shared memory by the offset
from the start of the mapping. -/
structure Durable where
  logPointerFile : Option (List UInt8)
  sharedMemory : ℤ → UInt8

def intBytes (logPointer : Int32) : List UInt8 := lowBytes 4 logPointer.toUInt32.toNat

/-- Read `sizeof(int)` bytes over an `int` that is 0; what a short file lacks stays 0. -/
def readInt (content : List UInt8) : Int32 := (UInt32.ofNat (value (content.take 4))).toInt32

@[simp] theorem readInt_intBytes (logPointer : Int32) (rest : List UInt8) :
    readInt (intBytes logPointer ++ rest) = logPointer := by
  have hlt := logPointer.toUInt32.toNat_lt
  have htake : (intBytes logPointer ++ rest).take 4 = intBytes logPointer :=
    List.take_left' (length_lowBytes 4 _)
  rw [readInt,htake,intBytes,value_lowBytes,Nat.mod_eq_of_lt (by omega),UInt32.ofNat_toNat,
    Int32.toInt32_toUInt32]

@[simp] theorem readInt_whole (logPointer : Int32) : readInt (intBytes logPointer) = logPointer := by
  simpa using readInt_intBytes logPointer []

/-- `truncate` is part of the update that stores `logPointer`. -/
inductive Effect
  | create
  | copy (logPointer : Int32) (data : CString)
  | truncate (logPointer : Int32)
  | write (logPointer : Int32)

/-- The bytes from `offset` on replaced by those of the string. As in the source, nothing compares
`offset` with the size of the mapping. -/
def memcpy (memory : ℤ → UInt8) (offset : ℤ) (data : CString) : ℤ → UInt8 := fun a =>
  if offset ≤ a ∧ a < offset + data.strlen then data.bytes.getD (a - offset).toNat 0 else memory a

def Durable.perform (d : Durable) : Effect → Durable
  | .create => { d with logPointerFile := some (intBytes 0) }
  | .copy logPointer data =>
    { d with sharedMemory := memcpy d.sharedMemory logPointer.toInt data }
  | .truncate _ => { d with logPointerFile := some [] }
  | .write logPointer =>
    { d with logPointerFile := some (intBytes logPointer ++ (d.logPointerFile.getD []).drop 4) }

/-- The pointer a run starts with, and whether it creates the file. -/
def initializeOrRecoverLogPointer (d : Durable) : Int32 × List Effect :=
  match d.logPointerFile with
  | some content => (readInt content,[])
  | none => (0,[.create])

def updateLogPointer (logPointer : Int32) : List Effect := [.truncate logPointer,.write logPointer]

/-- The effects of a run. Adding the `size_t` length to the `int` keeps the low 32 bits. A call that
fails before the copy ends the run there. -/
def main (data : CString) (d : Durable) : List Effect :=
  let (logPointer,created) := initializeOrRecoverLogPointer d
  created ++ .copy logPointer data ::
    updateLogPointer (logPointer + Int32.ofNat data.strlen)

def Effect.Overwrites (a : ℤ) : Effect → Prop
  | .copy logPointer data => logPointer.toInt ≤ a ∧ a < logPointer.toInt + data.strlen
  | _ => False

theorem perform_sharedMemory {d : Durable} {e : Effect} {a : ℤ} (h : ¬ e.Overwrites a) :
    (d.perform e).sharedMemory a = d.sharedMemory a := by
  cases e with
  | copy logPointer data => exact if_neg h
  | _ => rfl

def helloSharedMemory : CString where
  bytes := "Hello, Shared Memory!".toList.map fun c => UInt8.ofNat c.toNat
  noNul := by decide

end ShareMemoryForCpp
end Potimizer
