import Potimizer.RunHistory
import Potimizer.SharedMemoryExample

/-! Runs of the Java shared memory program that are not interrupted. A run appends its message at
the pointer or leaves the files as they were; the pointer keeps up with the memory exactly as long
as every message has one byte for each of its 16-bit units. -/
namespace Potimizer
namespace MappedLog

open ByteOrder SharedMemoryExample UnicodeCodec

section Encoding

variable {c : Char} {chars : List Char} {n : ℕ}

/-- Every character of the string is encoded in one byte. An unpaired surrogate counts as the
question mark that replaces it. -/
def SingleByte (data : JavaString) : Prop := ∀ c ∈ scalars data, c.toNat < 0x80

instance (data : JavaString) : Decidable (SingleByte data) :=
  List.decidableBAll (fun c : Char => c.toNat < 0x80) (scalars data)

def Ascii (data : JavaString) : Prop := ∀ u ∈ data, u.toNat < 0x80

instance (data : JavaString) : Decidable (Ascii data) :=
  List.decidableBAll (fun u : UInt16 => u.toNat < 0x80) data

/-- The characters of `n` units have at least `n` bytes, and `n` exactly if each has one. -/
structure Counts (chars : List Char) (n : ℕ) : Prop where
  le : n ≤ (utf8Encode chars).length
  eq_iff : (utf8Encode chars).length = n ↔ ∀ c ∈ chars, c.toNat < 0x80

theorem length_utf8Encode_cons (c : Char) (chars : List Char) :
    (utf8Encode (c :: chars)).length = c.utf8Size + (utf8Encode chars).length := by
  simp

theorem utf8Size_eq_one_iff (c : Char) : c.utf8Size = 1 ↔ c.toNat < 0x80 := by
  rw [Char.utf8Size_eq_one_iff,UInt32.le_iff_toNat_le]
  exact Nat.lt_succ_iff.symm

theorem Counts.unit (h : Counts chars n) (c : Char) : Counts (c :: chars) (n+1) := by
  have hle := h.le
  have hpos := c.utf8Size_pos
  refine ⟨?_,?_⟩
  · rw [length_utf8Encode_cons]
    omega
  · rw [length_utf8Encode_cons,List.forall_mem_cons,← h.eq_iff,← utf8Size_eq_one_iff]
    omega

theorem Counts.pair {u w : UInt16} (h : Counts chars n) (hu : IsHigh u) (hw : IsLow w) :
    Counts (pairChar u w :: chars) (n+2) := by
  have hle := h.le
  have hchar : 0x10000 ≤ (pairChar u w).toNat := by
    rw [pairChar_toNat hu hw]
    omega
  have hsize : (pairChar u w).utf8Size = 4 := by
    rw [Char.utf8Size_eq_four_iff,UInt32.lt_iff_toNat_lt]
    exact hchar
  refine ⟨?_,?_⟩
  · rw [length_utf8Encode_cons]
    omega
  · rw [length_utf8Encode_cons,List.forall_mem_cons]
    omega

theorem counts_nil : Counts [] 0 := ⟨le_rfl,by simp⟩

theorem counts_scalars (data : JavaString) : Counts (scalars data) data.length := by
  induction data using scalars.induct with
  | case1 => exact counts_nil
  | case2 u => exact counts_nil.unit _
  | case3 u w v hu hw ih =>
    rw [scalars,if_pos hu,if_pos hw]
    exact ih.pair hu hw
  | case4 u w v hu hw ih =>
    rw [scalars,if_pos hu,if_neg hw]
    exact ih.unit _
  | case5 u w v hu hw ih =>
    rw [scalars,if_neg hu,if_pos hw]
    exact ih.unit _
  | case6 u w v hu hw ih =>
    rw [scalars,if_neg hu,if_neg hw]
    exact ih.unit _

theorem length_le_getBytes (data : JavaString) : data.length ≤ (getBytes data).length :=
  (counts_scalars data).le

theorem length_getBytes_eq_iff (data : JavaString) :
    (getBytes data).length = data.length ↔ SingleByte data :=
  (counts_scalars data).eq_iff

theorem scalars_unit {u : UInt16} (hu : ¬ IsSurrogate u) (v : JavaString) :
    scalars (u :: v) = unitChar u :: scalars v := by
  cases v with
  | nil => simp [scalars,hu]
  | cons w v =>
    rw [isSurrogate_iff,not_or] at hu
    rw [scalars,if_neg hu.1,if_neg hu.2]

theorem getBytes_of_ascii {data : JavaString} (h : Ascii data) :
    getBytes data = data.map UInt16.toUInt8 := by
  induction data with
  | nil => rfl
  | cons u data ih =>
    obtain ⟨hlt,hrest⟩ := List.forall_mem_cons.mp h
    have hu : ¬ IsSurrogate u := by
      unfold IsSurrogate
      omega
    have hunit : utf8Unit u = [u.toUInt8] := if_pos hlt
    rw [getBytes,scalars_unit hu,utf8Encode_cons,utf8EncodeChar_unitChar hu,hunit,List.map_cons,
      ← ih hrest]
    rfl

end Encoding

section Runs

variable {files : Files} {data : JavaString} {p : Int32}

def Fits (p : Int32) (data : JavaString) : Prop :=
  0 ≤ p.toInt ∧ p.toInt + (getBytes data).length ≤ memorySize

instance (p : Int32) (data : JavaString) : Decidable (Fits p data) :=
  inferInstanceAs (Decidable (_ ∧ _))

theorem copy_of_not_fits (h : ¬ Fits p data) (files : Files) :
    ∃ e, copy p data files = .error e := by
  by_cases hposition : 0 ≤ p.toInt ∧ p.toInt ≤ memorySize
  · have hput : ¬ p.toInt.toNat + (getBytes data).length ≤ memorySize := by
      unfold Fits at h
      omega
    refine ⟨.bufferOverflow,?_⟩
    unfold copy position put
    rw [if_pos hposition]
    simp only [bind,Except.bind]
    rw [if_neg hput]
  · refine ⟨.illegalArgument,?_⟩
    unfold copy position
    rw [if_neg hposition]
    rfl

def appended (files : Files) (p : Int32) (data : JavaString) : Files where
  memoryFile := some (written (extend memorySize (files.memoryFile.getD [])) p.toInt.toNat
    (getBytes data))
  logPointerFile := some (putInt (extend 4 (files.logPointerFile.getD [])) (p + lengthInt data))

/-- How a run ends: the pointer cannot be read, the message is refused at the pointer, or it is
appended there. -/
inductive Ends (files : Files) (data : JavaString) : Except Exception Unit × Files → Prop
  | unread {e : Exception} (h : initializeOrRecoverLogPointer files = .error e) :
      Ends files data (.error e,files)
  | refused {p : Int32} {e : Exception} (h : initializeOrRecoverLogPointer files = .ok p)
      (hfits : ¬ Fits p data) : Ends files data (.error e,mapSharedMemory files)
  | appended {p : Int32} (h : initializeOrRecoverLogPointer files = .ok p)
      (hfits : Fits p data) : Ends files data (.ok (),appended files p data)

theorem main_of_fits (h : initializeOrRecoverLogPointer files = .ok p) (hfits : Fits p data) :
    main data files = (.ok (),appended files p data) := by
  have hcopy := copy_of_le hfits.1 hfits.2 (mapSharedMemory files)
  have hlength := length_le_getBytes data
  have hread : readBack data = .ok () := by
    obtain ⟨hnonneg,hlimit⟩ := hfits
    exact if_pos (by omega)
  obtain ⟨-,rfl⟩ := initializeOrRecoverLogPointer_mapLogPointer h
  unfold main
  rw [h]
  simp only [hcopy,hread]
  rfl

theorem main_ends (data : JavaString) (files : Files) : Ends files data (main data files) := by
  cases h : initializeOrRecoverLogPointer files with
  | error e =>
    have hmain : main data files = (.error e,files) := by simp [main,h]
    exact hmain ▸ .unread h
  | ok p =>
    by_cases hfits : Fits p data
    · exact main_of_fits h hfits ▸ .appended h hfits
    · obtain ⟨e,he⟩ := copy_of_not_fits hfits (mapSharedMemory files)
      have hmain : main data files = (.error e,mapSharedMemory files) := by simp [main,h,he]
      exact hmain ▸ .refused h hfits

theorem recover_appended (files : Files) (p : Int32) (data : JavaString) :
    initializeOrRecoverLogPointer (appended files p data) = .ok (p + lengthInt data) :=
  readInt_putInt _ _

theorem toInt_add_lengthInt (h : Fits p data) :
    (p + lengthInt data).toInt = p.toInt + data.length := by
  have hlength := length_le_getBytes data
  obtain ⟨hnonneg,hlimit⟩ := h
  unfold memorySize at hlimit
  exact toInt_add_ofNat_of_lt hnonneg (by omega)

end Runs

section OneRun

variable {files files' : Files} {data : JavaString} {p : Int32}

/-- The run writes the message at the pointer and nothing else, and advances the pointer. Bytes
that the mapping adds to the memory file are zero. -/
structure Appended (p : Int32) (data : JavaString) (files files' : Files) : Prop where
  inside : 0 ≤ p.toInt ∧ p.toInt + data.length ≤ memorySize
  message : ∀ i (h : i < data.length),
    (files'.memoryFile.getD [])[p.toInt.toNat+i]? = some data[i].toUInt8
  kept : ∃ n, ∀ j, j < p.toInt.toNat ∨ p.toInt.toNat + data.length ≤ j →
    (files'.memoryFile.getD [])[j]? = (files.memoryFile.getD [] ++ List.replicate n 0)[j]?
  pointer : ∃ q, initializeOrRecoverLogPointer files' = .ok q ∧ q.toInt = p.toInt + data.length

/-- The run changes nothing, up to zeros that the mapping adds to the memory file. -/
structure Unchanged (files files' : Files) : Prop where
  memoryFile : ∃ n, files'.memoryFile.getD [] = files.memoryFile.getD [] ++ List.replicate n 0
  logPointerFile : files'.logPointerFile = files.logPointerFile

theorem unchanged_mapSharedMemory (files : Files) : Unchanged files (mapSharedMemory files) :=
  ⟨⟨memorySize - (files.memoryFile.getD []).length,rfl⟩,rfl⟩

theorem appended_of_ascii (hascii : Ascii data) (hfits : Fits p data) :
    Appended p data files (appended files p data) := by
  have hbytes := getBytes_of_ascii hascii
  have hlength : (getBytes data).length = data.length := by rw [hbytes,List.length_map]
  have hmapped := length_extend memorySize (files.memoryFile.getD [])
  have hpointer := toInt_add_lengthInt hfits
  obtain ⟨hnonneg,hlimit⟩ := hfits
  have hmemory : p.toInt.toNat ≤ (extend memorySize (files.memoryFile.getD [])).length := by omega
  refine ⟨⟨hnonneg,hlength ▸ hlimit⟩,fun i hi => ?_,
    ⟨memorySize - (files.memoryFile.getD []).length,fun j hj => ?_⟩,
    ⟨_,recover_appended files p data,hpointer⟩⟩
  · have hi' : i < (getBytes data).length := by omega
    simpa [appended,hbytes] using getElem?_written hmemory hi'
  · obtain hj | hj := hj
    · exact getElem?_written_of_lt hmemory hj
    · exact getElem?_written_of_ge hmemory (by omega)

/-- Whatever is in the two files, a run with an ASCII message of any length either finds that the
message fits at the pointer and appends exactly the message there, or finds no such pointer, ends by
an exception and leaves the bytes of both files as they were. -/
theorem main_all_or_nothing (data : JavaString) (files : Files) (hascii : Ascii data) :
    (∃ p, initializeOrRecoverLogPointer files = .ok p ∧ Fits p data ∧
      (main data files).1 = .ok () ∧ Appended p data files (main data files).2) ∨
    (∀ p, initializeOrRecoverLogPointer files = .ok p → ¬ Fits p data) ∧
      ∃ e, (main data files).1 = .error e ∧ Unchanged files (main data files).2 := by
  have hends := main_ends data files
  generalize main data files = ended at hends ⊢
  cases hends with
  | unread h => exact .inr ⟨by simp [h],_,rfl,⟨0,by simp⟩,rfl⟩
  | @refused p e h hfits =>
    refine .inr ⟨fun q hq => ?_,_,rfl,unchanged_mapSharedMemory files⟩
    obtain rfl := Except.ok.inj (h.symm.trans hq)
    exact hfits
  | appended h hfits => exact .inl ⟨_,h,hfits,rfl,appended_of_ascii hascii hfits⟩

/-- A first run with the sample message appends it, and one that finds a pointer file of one byte
throws. -/
theorem main_all_or_nothing_hello :
    (∃ p, initializeOrRecoverLogPointer ⟨none,none⟩ = .ok p ∧ Fits p helloSharedMemory ∧
        (main helloSharedMemory ⟨none,none⟩).1 = .ok () ∧
        Appended p helloSharedMemory ⟨none,none⟩ (main helloSharedMemory ⟨none,none⟩).2) ∧
      ∃ e, (main helloSharedMemory ⟨none,some [1]⟩).1 = .error e ∧
        Unchanged ⟨none,some [1]⟩ (main helloSharedMemory ⟨none,some [1]⟩).2 := by
  constructor
  · refine (main_all_or_nothing helloSharedMemory ⟨none,none⟩ (by decide)).resolve_right ?_
    exact fun hthrows => hthrows.1 0 rfl ⟨by decide,by decide⟩
  · refine ((main_all_or_nothing helloSharedMemory ⟨none,some [1]⟩ (by decide)).resolve_left ?_).2
    rintro ⟨p,hp,-⟩
    cases hp

end OneRun

section Messages

variable {files : Files} {data : JavaString} {log : List UInt8}

def absent : Files := ⟨none,none⟩

def run (files : Files) (data : JavaString) : Files := (main data files).2

/-- The memory file begins with the log and the next run recovers its length. -/
structure Holds (files : Files) (log : List UInt8) : Prop where
  memory : log <+: files.memoryFile.getD []
  pointer : ∃ p, initializeOrRecoverLogPointer files = .ok p ∧ p.toInt = log.length

theorem holds_absent : Holds absent [] := ⟨List.nil_prefix,0,rfl,rfl⟩

theorem prefix_extend {size : ℕ} {memory : List UInt8} (h : log <+: memory) :
    log <+: extend size memory :=
  h.trans (List.prefix_append _ _)

theorem prefix_written {memory bytes : List UInt8} (h : log <+: memory) :
    log ++ bytes <+: written memory log.length bytes := by
  rw [written,← List.prefix_iff_eq_take.mp h]
  exact List.prefix_append _ _

/-- A message that fits is always written at the end of the log; the pointer counts its units, so
that it follows the log exactly if each has one byte. -/
theorem Holds.run_iff (h : Holds files log)
    (hfit : log.length + (getBytes data).length ≤ memorySize) :
    Holds (run files data) (log ++ getBytes data) ↔ SingleByte data := by
  obtain ⟨p,hrecover,hp⟩ := h.pointer
  have hfits : Fits p data := ⟨by omega,by omega⟩
  have hrun : run files data = appended files p data :=
    congrArg Prod.snd (main_of_fits hrecover hfits)
  have hnext := recover_appended files p data
  have hpointer := toInt_add_lengthInt hfits
  have hlength : (log ++ getBytes data).length = log.length + (getBytes data).length :=
    List.length_append
  rw [hrun,← length_getBytes_eq_iff]
  constructor
  · intro hholds
    obtain ⟨q,hq,hlog⟩ := hholds.pointer
    obtain rfl := Except.ok.inj (hnext.symm.trans hq)
    omega
  · intro hsingle
    refine ⟨?_,p + lengthInt data,hnext,by omega⟩
    have hposition : p.toInt.toNat = log.length := by omega
    rw [appended,hposition]
    exact prefix_written (prefix_extend h.memory)

def logOf (messages : List JavaString) : List UInt8 := messages.flatMap getBytes

theorem length_logOf (messages : List JavaString) :
    (logOf messages).length = (messages.map fun data => (getBytes data).length).sum :=
  List.length_flatMap

/-- Messages that fit into the buffer are appended one after the other, with the pointer at their
end after each run, exactly if they all consist of characters of one byte. -/
theorem messages_append_iff (messages : List JavaString)
    (hfit : (messages.map fun data => (getBytes data).length).sum ≤ memorySize) :
    (∀ done, done <+: messages → Holds (done.foldl run absent) (logOf done)) ↔
      ∀ data ∈ messages, SingleByte data := by
  rw [← length_logOf] at hfit
  apply RunHistory.log_iff (L := Holds) holds_absent _ hfit
  exact fun files log data h hfit => h.run_iff hfit

/-- The sample message twice. -/
theorem messages_append_iff_hello :
    (∀ done, done <+: [helloSharedMemory,helloSharedMemory] →
        Holds (done.foldl run absent) (logOf done)) ↔
      ∀ data ∈ [helloSharedMemory,helloSharedMemory], SingleByte data :=
  messages_append_iff _ (by decide)

/-- A message of one character with two bytes, written twice: the second run overwrites the second
byte of the first. -/
theorem accented_message_overwritten : ∃ messages : List JavaString,
    messages = [[0xe9],[0xe9]] ∧
    (messages.map fun data => (getBytes data).length).sum ≤ memorySize ∧
    logOf messages = [0xc3,0xa9,0xc3,0xa9] ∧
    ((messages.foldl run absent).memoryFile.getD []).take 4 = [0xc3,0xc3,0xa9,0] ∧
    ¬ ∀ done, done <+: messages → Holds (done.foldl run absent) (logOf done) := by
  refine ⟨_,rfl,by decide,by decide,by decide,fun h => ?_⟩
  have honce := h [[0xe9]] (by decide)
  obtain ⟨p,hp,hlog⟩ := honce.pointer
  have hone : initializeOrRecoverLogPointer (run absent [0xe9]) = .ok 1 := by decide
  obtain rfl := Except.ok.inj (hone.symm.trans hp)
  revert hlog
  decide

end Messages

end MappedLog
end Potimizer
