import Potimizer.LaneRegisters
import Potimizer.ScalarConverter

/-! The vector converter: blocks of sixteen units classified by two lane comparisons and encoded
through a 48-byte scratch buffer, then a per-unit tail. The run is total, and its result is a
closed expression of the units in host order. -/
namespace Potimizer
namespace VectorConverter

open LoopMachine CheckedMemory LaneRegisters UnicodeCodec
open ScalarConverter (swapBytes swapBytes_eq_byteSwap hostUnit hostOrder_getElem?)

/-- Convert a single unit through the output pointer. A surrogate takes the three-byte branch. -/
def utf16ToUtf8 (utf16 : UInt16) (utf8 : Buffer UInt8 48) : Except Fault (Buffer UInt8 48) :=
  if utf16 < 0x80 then
    utf8.put utf16.toUInt8
  else if utf16 < 0x800 then do
    let utf8 ← utf8.put (UInt16.toUInt8 ((utf16 >>> 6) ||| 0xC0))
    utf8.put (UInt16.toUInt8 ((utf16 &&& 0x3F) ||| 0x80))
  else do
    let utf8 ← utf8.put (UInt16.toUInt8 ((utf16 >>> 12) ||| 0xE0))
    let utf8 ← utf8.put (UInt16.toUInt8 (((utf16 >>> 6) &&& 0x3F) ||| 0x80))
    utf8.put (UInt16.toUInt8 ((utf16 &&& 0x3F) ||| 0x80))

theorem utf16ToUtf8_eq_puts (w : UInt16) (b : Buffer UInt8 48) :
    utf16ToUtf8 w b = b.puts (utf8Unit w) := by
  rw [← ScalarConverter.unit_bytes]
  simp only [utf16ToUtf8,UInt16.or_comm _ 0xC0,UInt16.or_comm _ 0xE0,UInt16.or_comm _ 0x80]
  split_ifs <;> simp [Buffer.puts]

structure State where
  utf8 : List UInt8
  buffer : Buffer UInt8 48
  i : ℕ

def limit1 : Vector UInt16 16 := set1 16 0x80

def limit2 : Vector UInt16 16 := set1 16 0x800

/-- One pass over a block of sixteen units. The two copies of the loop differ in how the loaded
register is brought to host order and in how each unit is. -/
def block (host : Vector UInt16 16 → Vector UInt16 16) (unit : UInt16 → UInt16)
    (utf16 : List UInt16) (s : State) : Except Fault (Outcome State Empty) := do
  let input := host (← load 16 utf16 s.i)
  let mask1 := cmpgtEpi16 input limit1
  let mask2 := cmpgtEpi16 input limit2
  let output ←
    if testz mask1 mask1 then
      (List.range 16).foldlM (fun output j => do
        output.put (unit (← read utf16 (s.i+j))).toUInt8) s.buffer
    else if testz mask2 mask2 then
      (List.range 16).foldlM (fun output j => do
        utf16ToUtf8 (unit (← read utf16 (s.i+j))) output) s.buffer
    else
      (List.range 16).foldlM (fun output j => do
        utf16ToUtf8 (unit (← read utf16 (s.i+j))) output) s.buffer
  return .next ⟨s.utf8 ++ output.contents,output.reset,s.i+16⟩

theorem block_advances {host : Vector UInt16 16 → Vector UInt16 16} {unit : UInt16 → UInt16}
    {u : List UInt16} {s t : State} (h : block host unit u s = .ok (.next t)) : t.i = s.i+16 := by
  simp only [block,bind,Except.bind,pure,Except.pure] at h
  repeat' split at h
  all_goals cases h
  all_goals rfl

def blockLoop (host : Vector UInt16 16 → Vector UInt16 16) (unit : UInt16 → UInt16)
    (utf16 : List UInt16) : Loop Fault State Empty where
  guard s := decide (s.i+16 ≤ utf16.length)
  body := block host unit utf16
  measure s := utf16.length - s.i
  decreases s t hg hb := by
    have hi : s.i+16 ≤ utf16.length := of_decide_eq_true hg
    have ht := block_advances hb
    omega

def littleEndianLoop : List UInt16 → Loop Fault State Empty := blockLoop id id

def swapLanes (input : Vector UInt16 16) : Vector UInt16 16 := or (srli input 8) (slli input 8)

def bigEndianLoop : List UInt16 → Loop Fault State Empty := blockLoop swapLanes swapBytes

/-- One pass of the tail loop: `utf16[i++]`, swapped if needed, through the helper. -/
def tailUnit (utf16 : List UInt16) (isLittleEndian : Bool) (s : State) :
    Except Fault (Outcome State Empty) := do
  let codeUnit ← read utf16 s.i
  let codeUnit := if !isLittleEndian then swapBytes codeUnit else codeUnit
  let output ← utf16ToUtf8 codeUnit s.buffer
  return .next ⟨s.utf8,output,s.i+1⟩

theorem tailUnit_advances {u : List UInt16} {le : Bool} {s t : State}
    (h : tailUnit u le s = .ok (.next t)) : t.i = s.i+1 := by
  simp only [tailUnit,bind,Except.bind,pure,Except.pure] at h
  repeat' split at h
  all_goals cases h
  all_goals rfl

def tailLoop (utf16 : List UInt16) (isLittleEndian : Bool) : Loop Fault State Empty where
  guard s := decide (s.i < utf16.length)
  body := tailUnit utf16 isLittleEndian
  measure s := utf16.length - s.i
  decreases s t hg hb := by
    have hi : s.i < utf16.length := of_decide_eq_true hg
    have ht := tailUnit_advances hb
    omega

/-- Nothing returned, the write pointer at the start of the scratch buffer. The source leaves the
cells uninitialized; no cell is read before it is written. -/
def start : State := ⟨[],⟨Vector.replicate 48 0,0,Nat.zero_le 48⟩,0⟩

def blockLoopOf (utf16 : List UInt16) (isLittleEndian : Bool) : Loop Fault State Empty :=
  if isLittleEndian then littleEndianLoop utf16 else bigEndianLoop utf16

def blockPhase (utf16 : List UInt16) (isLittleEndian : Bool) :
    Except Fault (Outcome State Empty) :=
  (blockLoopOf utf16 isLittleEndian).run start

def utf16ToUtf8Avx2 (utf16 : List UInt16) (isLittleEndian : Bool) :
    Except Fault (List UInt8) := do
  match ← blockPhase utf16 isLittleEndian with
  | .next s =>
    match ← (tailLoop utf16 isLittleEndian).run s with
    | .next s => return s.utf8 ++ s.buffer.contents

/-- A block whose units pass for one-byte units under the signed comparison. -/
def Shortcut (units : List UInt16) : Prop := ∀ w ∈ units, w.toInt16 ≤ 0x80

instance (units : List UInt16) : Decidable (Shortcut units) :=
  List.decidableBAll (fun w : UInt16 => w.toInt16 ≤ 0x80) units

/-- How the units of a block are encoded: by their low bytes when the shortcut is taken, and
otherwise each by its own form. -/
def blockCode (units : List UInt16) : UInt16 → List UInt8 :=
  if Shortcut units then fun w => [w.toUInt8] else utf8Unit

def blockBytes (units : List UInt16) : List UInt8 := units.flatMap (blockCode units)

def blockAt (v : List UInt16) (k : ℕ) : List UInt16 := (v.drop (16*k)).take 16

def blocksBytes (v : List UInt16) (count : ℕ) : List UInt8 :=
  (List.range count).flatMap fun k => blockBytes (blockAt v k)

theorem blocksBytes_succ (v : List UInt16) (count : ℕ) :
    blocksBytes v (count+1) = blocksBytes v count ++ blockBytes (blockAt v count) := by
  simp [blocksBytes,List.range_succ]

def avx2Bytes (v : List UInt16) : List UInt8 :=
  blocksBytes v (v.length/16) ++ (v.drop (16*(v.length/16))).flatMap utf8Unit

theorem utf8Unit_length_le (w : UInt16) : (utf8Unit w).length ≤ 3 := by
  unfold utf8Unit; split_ifs <;> simp

theorem blockCode_length_le (units : List UInt16) (w : UInt16) :
    (blockCode units w).length ≤ 3 := by
  unfold blockCode
  split_ifs
  · simp
  · exact utf8Unit_length_le w

theorem flatMap_length_le {code : UInt16 → List UInt8} (hcode : ∀ w, (code w).length ≤ 3)
    (units : List UInt16) : (units.flatMap code).length ≤ 3*units.length := by
  induction units with
  | nil => simp
  | cons w units ih =>
    have hw := hcode w
    simp only [List.flatMap_cons,List.length_append,List.length_cons]
    omega

section Block

variable {host : Vector UInt16 16 → Vector UInt16 16} {unit : UInt16 → UInt16} {u : List UInt16}
  {s : State}

/-- The comparison takes the one-byte branch exactly when no unit of the block is above 0x80. -/
theorem testz_block_iff (hlane : ∀ r j (h : j < 16), (host r)[j] = unit r[j])
    (hi : s.i+16 ≤ u.length) :
    testz (cmpgtEpi16 (host (Vector.ofFn fun j : Fin 16 => u[s.i+j.val])) limit1)
      (cmpgtEpi16 (host (Vector.ofFn fun j : Fin 16 => u[s.i+j.val])) limit1) = true ↔
    Shortcut (((u.drop s.i).take 16).map unit) := by
  rw [Shortcut,limit1,testz_cmpgtEpi16_iff,List.forall_mem_iff_getElem]
  constructor
  · intro hall j hj
    have hlt : j < 16 := by simp at hj; omega
    simpa [hlane _ j hlt] using hall j hlt
  · intro hall j hj
    have hlt : j < (((u.drop s.i).take 16).map unit).length := by simp; omega
    simpa [hlane _ j hj] using hall j hlt

theorem block_run (hlane : ∀ r j (h : j < 16), (host r)[j] = unit r[j])
    (hi : s.i+16 ≤ u.length) (hempty : s.buffer.contents = []) :
    ∃ buffer, buffer.contents = [] ∧ block host unit u s =
      .ok (.next ⟨s.utf8 ++ blockBytes (((u.drop s.i).take 16).map unit),buffer,s.i+16⟩) := by
  have hlen : (((u.drop s.i).take 16).map unit).length = 16 := by simp; omega
  have hfit := flatMap_length_le (blockCode_length_le (((u.drop s.i).take 16).map unit))
    (((u.drop s.i).take 16).map unit)
  obtain ⟨output,hputs,hcontents⟩ := s.buffer.puts_ok
    (blockBytes (((u.drop s.i).take 16).map unit)) (by
      rw [hempty,blockBytes,List.length_nil]; omega)
  refine ⟨output.reset,Buffer.reset_contents output,?_⟩
  rw [hempty,List.nil_append] at hcontents
  have hwrite (code : UInt16 → List UInt8)
      (hcode : blockCode (((u.drop s.i).take 16).map unit) = code)
      (f : Buffer UInt8 48 → ℕ → Except Fault (Buffer UInt8 48))
      (hf : ∀ b j x, u[s.i+j]? = some x → f b j = b.puts (code (unit x))) :
      (List.range 16).foldlM f s.buffer = .ok output := by
    rw [Buffer.foldlM_segment u s.i 16 hi f (fun x => code (unit x)) hf,← hputs,blockBytes,
      hcode,List.flatMap_map]
  rw [block,load_ok hi]
  simp only [bind,Except.bind,testz_block_iff hlane hi,ite_self]
  by_cases hshort : Shortcut (((u.drop s.i).take 16).map unit)
  · rw [if_pos hshort,hwrite _ (if_pos hshort)]
    · simp only [pure,Except.pure,hcontents]
    · intro b j x hx
      simp [read_ok hx,Buffer.puts]
  · rw [if_neg hshort,hwrite _ (if_neg hshort)]
    · simp only [pure,Except.pure,hcontents]
    · intro b j x hx
      simp only [read_ok hx,utf16ToUtf8_eq_puts]

/-- The state at the head of the block loop after `k` passes: whole blocks are done, the write
pointer is at the start of the buffer. -/
structure AtBlock (v : List UInt16) (k : ℕ) (t : State) : Prop where
  index : t.i = 16*k
  index_le : 16*k ≤ v.length
  bytes : t.utf8 = blocksBytes v k
  rewound : t.buffer.contents = []

theorem AtBlock.start (v : List UInt16) : AtBlock v 0 start :=
  ⟨rfl,Nat.zero_le _,rfl,by simp [VectorConverter.start,Buffer.contents]⟩

theorem AtBlock.step (hlane : ∀ r j (h : j < 16), (host r)[j] = unit r[j]) {k : ℕ}
    (h : AtBlock (u.map unit) k s) (hg : s.i+16 ≤ u.length) :
    ∃ t, block host unit u s = .ok (.next t) ∧ AtBlock (u.map unit) (k+1) t := by
  obtain ⟨buffer,hrewound,hrun⟩ := block_run hlane hg h.rewound
  have hi := h.index
  refine ⟨_,hrun,by simp [hi]; omega,by simp; omega,?_,hrewound⟩
  simp [h.bytes,blocksBytes_succ,blockAt,hi,List.map_take,List.map_drop]

theorem blockLoop_run (hlane : ∀ r j (h : j < 16), (host r)[j] = unit r[j]) :
    ∃ t, (blockLoop host unit u).run start = .ok (.next t) ∧
      AtBlock (u.map unit) (u.length/16) t := by
  obtain ⟨t,hrun,⟨k,hk⟩,hstop⟩ := (blockLoop host unit u).run_total_of_isEmpty
    (fun t => ∃ k, AtBlock (u.map unit) k t) (fun s hs hg => by
      obtain ⟨k,hk⟩ := hs
      obtain ⟨t,ht,hnext⟩ := hk.step hlane (of_decide_eq_true hg)
      exact ⟨t,ht,k+1,hnext⟩) start ⟨0,AtBlock.start _⟩
  refine ⟨t,hrun,?_⟩
  have hend : ¬ t.i+16 ≤ u.length := of_decide_eq_false hstop
  have hle := hk.index_le
  rw [hk.index] at hend
  rw [List.length_map] at hle
  obtain rfl : k = u.length/16 := by omega
  exact hk

end Block

section Tail

variable {u : List UInt16} {le : Bool}

/-- The state at the head of the tail loop: `i` units are done, those past the full blocks are in
the scratch buffer. -/
structure AtTail (v : List UInt16) (t : State) : Prop where
  index_ge : 16*(v.length/16) ≤ t.i
  index_le : t.i ≤ v.length
  bytes : t.utf8 = blocksBytes v (v.length/16)
  buffered : t.buffer.contents =
    ((v.drop (16*(v.length/16))).take (t.i - 16*(v.length/16))).flatMap utf8Unit

theorem AtBlock.atTail {v : List UInt16} {t : State} (h : AtBlock v (v.length/16) t) :
    AtTail v t :=
  ⟨h.index.ge,h.index.trans_le h.index_le,h.bytes,by simp [h.rewound,h.index]⟩

theorem AtTail.step {s : State} (h : AtTail (hostOrder le u) s) (hg : s.i < u.length) :
    ∃ t, tailUnit u le s = .ok (.next t) ∧ AtTail (hostOrder le u) t := by
  have hge := h.index_ge
  have hx : u[s.i]? = some u[s.i] := List.getElem?_eq_getElem hg
  have hv : (hostOrder le u)[s.i]? = some (hostUnit le u[s.i]) := by
    rw [hostOrder_getElem?,hx]; rfl
  -- At most fifteen units wait in the buffer, so the next one fits.
  have hfit : s.buffer.contents.length + (utf8Unit (hostUnit le u[s.i])).length ≤ 48 := by
    have hw := utf8Unit_length_le (hostUnit le u[s.i])
    have hlen := flatMap_length_le utf8Unit_length_le
      (((hostOrder le u).drop (16*((hostOrder le u).length/16))).take
        (s.i - 16*((hostOrder le u).length/16)))
    rw [← h.buffered,List.length_take] at hlen
    rw [hostOrder_length] at hlen hge
    omega
  obtain ⟨output,hputs,hcontents⟩ := s.buffer.puts_ok _ hfit
  refine ⟨⟨s.utf8,output,s.i+1⟩,?_,?_⟩
  · have hunit : (if !le then swapBytes u[s.i] else u[s.i]) = hostUnit le u[s.i] := rfl
    simp only [tailUnit,read_ok hx,bind,Except.bind,hunit,utf16ToUtf8_eq_puts,hputs]
    rfl
  · refine ⟨by dsimp only; omega,by simpa using hg,h.bytes,?_⟩
    have hsub : s.i+1 - 16*((hostOrder le u).length/16) =
        s.i - 16*((hostOrder le u).length/16) + 1 := by omega
    have hsum : 16*((hostOrder le u).length/16) + (s.i - 16*((hostOrder le u).length/16)) = s.i := by
      omega
    simp only [hcontents,h.buffered,hsub,List.take_add_one,List.getElem?_drop,hsum,hv,
      List.flatMap_append,Option.toList_some,List.flatMap_singleton]

theorem tailLoop_run {s : State} (h : AtTail (hostOrder le u) s) :
    ∃ t, (tailLoop u le).run s = .ok (.next t) ∧ AtTail (hostOrder le u) t ∧ t.i = u.length := by
  obtain ⟨t,hrun,ht,hstop⟩ := (tailLoop u le).run_total_of_isEmpty (AtTail (hostOrder le u))
    (fun s hs hg => hs.step (of_decide_eq_true hg)) s h
  refine ⟨t,hrun,ht,?_⟩
  have hend : ¬ t.i < u.length := of_decide_eq_false hstop
  have hle := ht.index_le
  rw [hostOrder_length] at hle
  omega

end Tail

theorem swapLanes_getElem (r : Vector UInt16 16) (j : ℕ) (h : j < 16) :
    (swapLanes r)[j] = swapBytes r[j] := by
  simp [swapLanes,swapBytes]

theorem blockPhase_run (u : List UInt16) (le : Bool) :
    ∃ t, blockPhase u le = .ok (.next t) ∧ AtBlock (hostOrder le u) (u.length/16) t := by
  cases le with
  | true =>
    have hmap : hostOrder true u = u.map id := by simp [hostOrder]
    rw [hmap]
    exact blockLoop_run fun r j h => rfl
  | false =>
    have hmap : hostOrder false u = u.map swapBytes := by
      simp [hostOrder,funext swapBytes_eq_byteSwap]
    rw [hmap]
    exact blockLoop_run swapLanes_getElem

theorem utf16ToUtf8Avx2_eq (u : List UInt16) (le : Bool) :
    utf16ToUtf8Avx2 u le = .ok (avx2Bytes (hostOrder le u)) := by
  obtain ⟨t,hrun,hat⟩ := blockPhase_run u le
  rw [← hostOrder_length le u] at hat
  obtain ⟨t',hrun',hat',hend⟩ := tailLoop_run hat.atTail
  have htake : t'.buffer.contents =
      ((hostOrder le u).drop (16*((hostOrder le u).length/16))).flatMap utf8Unit := by
    rw [hat'.buffered,List.take_of_length_le (by simp [hend])]
  simp only [utf16ToUtf8Avx2,hrun,hrun',bind,Except.bind,pure,Except.pure,hat'.bytes,htake]
  rfl

section Bounds

variable {u v : List UInt16} {le : Bool} {s t : State}

theorem blocksBytes_length_le (v : List UInt16) (count : ℕ) :
    (blocksBytes v count).length ≤ 3*(16*count) := by
  induction count with
  | zero => simp [blocksBytes]
  | succ count ih =>
    have hblock := flatMap_length_le (blockCode_length_le (blockAt v count)) (blockAt v count)
    have hunits : (blockAt v count).length ≤ 16 := by simp [blockAt]
    rw [blocksBytes_succ,List.length_append,blockBytes]
    omega

theorem avx2Bytes_length_le (v : List UInt16) : (avx2Bytes v).length ≤ 3*v.length := by
  have hblocks := blocksBytes_length_le v (v.length/16)
  have htail := flatMap_length_le utf8Unit_length_le (v.drop (16*(v.length/16)))
  rw [List.length_drop] at htail
  rw [avx2Bytes,List.length_append]
  omega

/-- The write pointer is at the start of the buffer, and what was appended fits the units done. -/
structure Rewound (u : List UInt16) (t : State) : Prop where
  index_le : t.i ≤ u.length
  output : t.buffer.output = 0
  appended : t.utf8.length ≤ 3*t.i

theorem AtBlock.toRewound {k : ℕ} (h : AtBlock v k t) (hlen : v.length = u.length) : Rewound u t := by
  have houtput := t.buffer.contents_length
  have hbytes := blocksBytes_length_le v k
  rw [h.rewound,List.length_nil] at houtput
  refine ⟨h.index.trans_le (hlen ▸ h.index_le),houtput.symm,?_⟩
  rw [h.bytes,h.index]
  exact hbytes

theorem rewound_of_visits (h : (blockLoopOf u le).Visits start t) : Rewound u t := by
  have hvisits : ∀ {host unit}, (∀ r j (h : j < 16), (host r)[j] = unit r[j]) →
      (blockLoop host unit u).Visits start t → Rewound u t := by
    intro host unit hlane h
    obtain ⟨k,hk⟩ := h.invariant (I := fun t => ∃ k, AtBlock (u.map unit) k t)
      (fun s t ⟨k,hk⟩ hg hb => by
        obtain ⟨t',ht',hnext⟩ := hk.step hlane (of_decide_eq_true hg)
        cases hb.symm.trans ht'
        exact ⟨k+1,hnext⟩) ⟨0,AtBlock.start _⟩
    exact hk.toRewound (List.length_map unit)
  cases le with
  | true => exact hvisits (fun r j h => rfl) h
  | false => exact hvisits swapLanes_getElem h

/-- For every text and byte order the vector converter makes no access outside the scratch buffer
or the text, starts every block and the tail with the write pointer rewound, and returns at most
three bytes a unit, the size it reserves. -/
theorem utf16ToUtf8Avx2_bounds (u : List UInt16) (isLittleEndian : Bool) :
    (∃ r, utf16ToUtf8Avx2 u isLittleEndian = .ok r ∧ r.length ≤ 3*u.length) ∧
    (∀ t, (blockLoopOf u isLittleEndian).Visits start t → Rewound u t) ∧
    ∃ t, blockPhase u isLittleEndian = .ok (.next t) ∧ Rewound u t := by
  refine ⟨⟨_,utf16ToUtf8Avx2_eq u isLittleEndian,?_⟩,fun t => rewound_of_visits,?_⟩
  · simpa using avx2Bytes_length_le (hostOrder isLittleEndian u)
  · obtain ⟨t,hrun,-⟩ := blockPhase_run u isLittleEndian
    exact ⟨t,hrun,rewound_of_visits ((blockLoopOf u isLittleEndian).visits_of_run hrun)⟩

end Bounds

end VectorConverter
end Potimizer
