import Potimizer.BoundedLog
import Potimizer.MappedRecovery

/-! The Java shared memory program keeps a bounded log, for messages whose characters have one byte
each: a run is an offer to it. A run that is killed before it has stored the pointer is no offer. -/
namespace Potimizer
namespace MappedJournal

open MappedLog MappedRecovery SharedMemoryExample

section Completed

variable {files : Files} {data : JavaString} {log : BoundedLog UInt8 memorySize}

def logAfter (messages : List JavaString) : BoundedLog UInt8 memorySize :=
  (messages.map getBytes).foldl BoundedLog.offer (.empty UInt8 memorySize)

theorem fits_iff_accepts {p : Int32} (hp : p.toInt = log.content.length) :
    Fits p data ↔ log.Accepts (getBytes data) := by
  unfold Fits BoundedLog.Accepts
  omega

theorem holds_mapSharedMemory {log : List UInt8} (h : Holds files log) :
    Holds (mapSharedMemory files) log :=
  ⟨prefix_extend h.memory,h.pointer⟩

theorem main_of_not_accepts (h : Holds files log.content) (hrefused : ¬ log.Accepts (getBytes data)) :
    main data files = (.error .bufferOverflow,mapSharedMemory files) := by
  obtain ⟨p,hrecover,hp⟩ := h.pointer
  have hfits := log.fits
  have hposition : position p = .ok log.content.length := by
    rw [position,if_pos (by omega),hp]
    rfl
  have hput : ¬ log.content.length + (getBytes data).length ≤ memorySize := hrefused
  unfold main copy put
  rw [hrecover]
  simp only [hposition,bind,Except.bind]
  rw [if_neg hput]

theorem main_result (h : Holds files log.content) (data : JavaString) : (main data files).1 =
    if log.Accepts (getBytes data) then .ok () else .error .bufferOverflow := by
  obtain ⟨p,hrecover,hp⟩ := h.pointer
  split_ifs with haccepts
  · rw [main_of_fits hrecover ((fits_iff_accepts hp).2 haccepts)]
  · rw [main_of_not_accepts h haccepts]

theorem holds_run (h : Holds files log.content) (hsingle : SingleByte data) :
    Holds (run files data) (log.offer (getBytes data)).content := by
  by_cases haccepts : log.Accepts (getBytes data)
  · rw [BoundedLog.content_offer haccepts]
    exact (h.run_iff haccepts).2 hsingle
  · rw [BoundedLog.offer_of_refused haccepts,run,main_of_not_accepts h haccepts]
    exact holds_mapSharedMemory h

theorem holds_logAfter {messages : List JavaString} (hsingle : ∀ data ∈ messages, SingleByte data) :
    Holds (messages.foldl run absent) (logAfter messages).content :=
  BoundedLog.holds_offers holds_absent fun _ _ data hdata h => holds_run h (hsingle data hdata)

/-- Runs with messages of one byte a character refine a bounded log, also when they offer more than
fits: the memory begins with the accepted messages, whole and in order, the pointer is their length,
and the next run succeeds exactly if the log accepts its message; otherwise `put` throws and the
bytes of both files stay. -/
theorem runs_refine_log (messages : List JavaString) (hsingle : ∀ data ∈ messages, SingleByte data)
    (data : JavaString) :
    Holds (messages.foldl run absent)
        ((BoundedLog.empty UInt8 memorySize).accepted (messages.map getBytes)).flatten ∧
      (main data (messages.foldl run absent)).1 =
        (if (logAfter messages).Accepts (getBytes data) then .ok () else .error .bufferOverflow) ∧
      (¬ (logAfter messages).Accepts (getBytes data) →
        Unchanged (messages.foldl run absent) (run (messages.foldl run absent) data)) := by
  have hholds := holds_logAfter hsingle
  refine ⟨?_,main_result hholds data,fun hrefused => ?_⟩
  · have hcontent := BoundedLog.content_offers (.empty UInt8 memorySize) (messages.map getBytes)
    rw [BoundedLog.content_empty,List.nil_append] at hcontent
    exact hcontent ▸ hholds
  · rw [run,main_of_not_accepts hholds hrefused]
    exact unchanged_mapSharedMemory _

/-- After the sample message, 1010 more units do not fit. -/
theorem runs_refine_log_refused :
    (main (List.replicate 1010 97) ([helloSharedMemory].foldl run absent)).1 =
      .error .bufferOverflow := by
  have hresult := (runs_refine_log [helloSharedMemory] (by decide) (List.replicate 1010 97)).2.1
  have hlog : (logAfter [helloSharedMemory]).content.length = 21 := by decide
  have hlength := length_le_getBytes (List.replicate 1010 97)
  have hrefused : ¬ (logAfter [helloSharedMemory]).Accepts (getBytes (List.replicate 1010 97)) := by
    rw [List.length_replicate] at hlength
    unfold BoundedLog.Accepts memorySize
    omega
  rw [hresult,if_neg hrefused]

section Output

/-- The bytes that `sharedMemory.get(buffer)` reads after `sharedMemory.position(0)`. -/
def readBuffer (data : JavaString) (files : Files) : Except Exception (List UInt8) :=
  if data.length ≤ memorySize then .ok ((files.memoryFile.getD []).take data.length)
  else .error .bufferUnderflow

theorem readBack_eq (data : JavaString) (files : Files) :
    readBack data = (readBuffer data files).map fun _ => () := by
  unfold readBack readBuffer
  split_ifs <;> rfl

def output (data : JavaString) (files : Files) : Except Exception (List UInt8) :=
  match main data files with
  | (.error e,_) => .error e
  | (.ok _,left) => readBuffer data left

theorem output_of_accepts (h : Holds files log.content) (hsingle : SingleByte data)
    (haccepts : log.Accepts (getBytes data)) :
    output data files = .ok ((log.content ++ getBytes data).take (getBytes data).length) := by
  have hlength := (length_getBytes_eq_iff data).2 hsingle
  have hmemory := (holds_run h hsingle).memory
  have hresult := main_result h data
  rw [if_pos haccepts] at hresult
  rw [BoundedLog.content_offer haccepts] at hmemory
  have hfits : data.length ≤ memorySize := by
    unfold BoundedLog.Accepts at haccepts
    omega
  obtain ⟨rest,hrest⟩ := hmemory
  have hoverlap : (getBytes data).length ≤ (log.content ++ getBytes data).length := by
    rw [List.length_append]
    omega
  have hleft : main data files = (.ok (),run files data) := Prod.ext hresult rfl
  unfold output readBuffer
  rw [hleft]
  simp only [if_pos hfits]
  rw [← hrest,← hlength,List.take_append_of_le_length hoverlap]

/-- A run whose message is accepted prints as many bytes as its message has from the start of the log,
the message included. This is its own message exactly if the log, with the message appended, begins
with it. -/
theorem prints_own_message_iff (messages : List JavaString)
    (hsingle : ∀ data ∈ messages, SingleByte data) (data : JavaString) (hdata : SingleByte data)
    (haccepts : (logAfter messages).Accepts (getBytes data)) :
    output data (messages.foldl run absent) =
        .ok (((logAfter messages).content ++ getBytes data).take (getBytes data).length) ∧
      (output data (messages.foldl run absent) = .ok (getBytes data) ↔
        getBytes data <+: (logAfter messages).content ++ getBytes data) := by
  have houtput := output_of_accepts (holds_logAfter hsingle) hdata haccepts
  refine ⟨houtput,?_⟩
  rw [houtput,List.prefix_iff_eq_take]
  constructor
  · intro h
    exact (Except.ok.inj h).symm
  · intro h
    rw [← h]

/-- The sample message, and then one of four units: the second run prints the first four bytes of
the first message. -/
theorem prints_own_message_iff_other :
    output [116,97,105,108] ([helloSharedMemory].foldl run absent) =
        .ok ((getBytes helloSharedMemory).take 4) ∧
      ¬ output [116,97,105,108] ([helloSharedMemory].foldl run absent) =
        .ok (getBytes [116,97,105,108]) := by
  obtain ⟨houtput,hown⟩ := prints_own_message_iff [helloSharedMemory] (by decide)
    [116,97,105,108] (by decide) (by decide)
  rw [hown]
  exact ⟨houtput.trans (congrArg Except.ok (by decide)),by decide⟩

end Output

end Completed

/-- A run that may be killed, with a message of one byte a character. -/
structure ByteRun where
  run : Run
  single : SingleByte run.data

def Finishes (w : World) (r : Run) : Prop :=
  ∀ n ∈ r.killedAfter, (effects r.data w.files).length ≤ n

instance (w : World) (r : Run) : Decidable (Finishes w r) :=
  match h : r.killedAfter with
  | none => .isTrue (by simp [Finishes,h])
  | some n => decidable_of_iff ((effects r.data w.files).length ≤ n) (by simp [Finishes,h])

/-- The files, with the log of the messages offered by runs that finished. -/
structure Journal where
  world : World
  log : BoundedLog UInt8 memorySize

def Journal.run (j : Journal) (r : ByteRun) : Journal where
  world := j.world.run r.run
  log := if Finishes j.world r.run then j.log.offer (getBytes r.run.data) else j.log

def journalAfter (runs : List ByteRun) : Journal :=
  runs.foldl Journal.run ⟨start,.empty UInt8 memorySize⟩

section Killed

variable {files : Files} {w : World} {r : Run} {log : List UInt8}

theorem world_journalAfter (runs : List ByteRun) :
    (journalAfter runs).world = after (runs.map ByteRun.run) := by
  induction runs using List.reverseRecOn with
  | nil => rfl
  | append_singleton runs r ih =>
    rw [journalAfter,List.foldl_append,List.map_append,after,List.foldl_append]
    exact congrArg (fun w => World.run w r.run) ih

theorem performs_of_finishes (h : Finishes w r) :
    r.performs (effects r.data w.files) = effects r.data w.files := by
  unfold Run.performs
  cases hkilled : r.killedAfter with
  | none => rfl
  | some n => exact List.take_of_length_le (h n hkilled)

theorem run_of_finishes (h : Finishes w r) : (w.run r).files = MappedLog.run w.files r.data := by
  rw [World.run,performs_of_finishes h,foldl_perform_files]
  exact foldl_effects r.data w.files

def Effect.After (n : ℕ) : Effect → Prop
  | .put position _ => position = n
  | _ => True

theorem prefix_perform {e : Effect} (h : log <+: files.memoryFile.getD [])
    (he : Effect.After log.length e) : log <+: (perform files e).memoryFile.getD [] := by
  cases e with
  | mapMemory => exact prefix_extend h
  | put position bytes =>
    obtain rfl : position = log.length := he
    exact (List.prefix_append log bytes).trans (prefix_written h)
  | _ => exact h

theorem prefix_foldl_perform {effects : List Effect} (h : log <+: files.memoryFile.getD [])
    (heffects : ∀ e ∈ effects, Effect.After log.length e) :
    log <+: (effects.foldl perform files).memoryFile.getD [] := by
  induction effects generalizing files with
  | nil => exact h
  | cons e effects ih =>
    obtain ⟨he,hrest⟩ := List.forall_mem_cons.mp heffects
    exact ih (prefix_perform h he) hrest

theorem effects_after (h : Holds files log) (data : JavaString) :
    ∀ e ∈ effects data files, Effect.After log.length e := by
  obtain ⟨p,hrecover,hp⟩ := h.pointer
  by_cases hfits : Fits p data
  · have hposition : p.toInt.toNat = log.length := by omega
    rw [effects_of_fits hrecover hfits,hposition]
    simp [Effect.After]
  · rw [effects_of_not_fits hrecover hfits]
    simp [Effect.After]

theorem stored_of_killed {n : ℕ} (h : Recovers w) (data : JavaString)
    (hn : n < (effects data w.files).length) :
    (((effects data w.files).take n).foldl World.perform w).stored = w.stored := by
  by_cases hfits : Fits w.stored data
  · rw [effects_of_fits h hfits] at hn ⊢
    obtain _|_|_|_|_|_|n := n <;> first | rfl | (simp only [List.length_cons,List.length_nil] at hn; omega)
  · rw [effects_of_not_fits h hfits] at hn ⊢
    obtain _|_|n := n <;> first | rfl | (simp only [List.length_cons,List.length_nil] at hn; omega)

/-- A run that is killed before it has stored the pointer keeps the log and the value stored. -/
theorem killed_keeps (h : Recovers w) (hlog : Holds w.files log) (hr : ¬ Torn w r)
    (hkilled : ¬ Finishes w r) : Holds (w.run r).files log := by
  obtain ⟨n,hn,hlt⟩ : ∃ n, r.killedAfter = some n ∧ n < (effects r.data w.files).length := by
    simpa [Finishes] using hkilled
  have hperforms : r.performs (effects r.data w.files) = (effects r.data w.files).take n := by
    simp [Run.performs,hn]
  obtain ⟨p,hrecover,hp⟩ := hlog.pointer
  have hstored : w.stored = p := Except.ok.inj (h.symm.trans hrecover)
  have hnext : Recovers (w.run r) := h.run hr
  rw [Recovers,World.run,hperforms,stored_of_killed h r.data hlt,hstored] at hnext
  rw [World.run,hperforms]
  refine ⟨?_,p,hnext,hp⟩
  rw [foldl_perform_files]
  exact prefix_foldl_perform hlog.memory fun e he =>
    effects_after hlog r.data e (List.mem_of_mem_take he)

def Sound (j : Journal) : Prop := Recovers j.world ∧ Holds j.world.files j.log.content

def Unreadable (j : Journal) : Prop := Wedged j.world

theorem Sound.run {j : Journal} (h : Sound j) (r : ByteRun) (hr : ¬ Torn j.world r.run) :
    Sound (j.run r) := by
  obtain ⟨hrecovers,hholds⟩ := h
  refine ⟨hrecovers.run hr,?_⟩
  unfold Journal.run
  by_cases hfinishes : Finishes j.world r.run
  · rw [if_pos hfinishes]
    change Holds (j.world.run r.run).files _
    rw [run_of_finishes hfinishes]
    exact holds_run hholds r.single
  · rw [if_neg hfinishes]
    exact killed_keeps hrecovers hholds hr hfinishes

/-- The files survive any history of completed and killed runs with the log of the messages whose
runs finished, exactly if no run was killed between the creation of the pointer file and its
extension. -/
theorem journal_survives_iff (runs : List ByteRun) :
    Holds (journalAfter runs).world.files (journalAfter runs).log.content ↔
      ∀ before r, before ++ [r] <+: runs → ¬ Torn (journalAfter before).world r.run := by
  have hruns : RunHistory.Permitted Journal.run (fun j r => ¬ Torn j.world r.run)
        ⟨start,.empty UInt8 memorySize⟩ runs ∧ Sound (journalAfter runs) ∨
      ¬ RunHistory.Permitted Journal.run (fun j r => ¬ Torn j.world r.run)
        ⟨start,.empty UInt8 memorySize⟩ runs ∧ Unreadable (journalAfter runs) := by
    apply RunHistory.kept_or_broken (P := Sound)
    · exact ⟨rfl,holds_absent⟩
    · exact fun j r h hr => h.run r hr
    · exact fun j r h hr => h.1.wedged_run (not_not.mp hr)
    · exact fun j r h => h.run r.run
  obtain ⟨hpermitted,hsound⟩ | ⟨hpermitted,hwedged⟩ := hruns
  · exact iff_of_true hsound.2 hpermitted
  · refine iff_of_false (fun hholds => ?_) hpermitted
    obtain ⟨p,hrecover,-⟩ := hholds.pointer
    exact absurd (hwedged.symm.trans hrecover) (by simp)

end Killed

end MappedJournal
end Potimizer
