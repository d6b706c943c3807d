import AlienOS.Heap.Init
import Mathlib.Algebra.Ring.Nat

/-!
# Multiboot — where `internal_read_multibootinfo` puts the heap

The loop sees the low halves of `addr` and `len` and a sum that wraps.
-/

open AlienOS.Lib

namespace AlienOS.Heap

/-! ## Memory maps -/

/-- The fields of `multiboot_memory_map_t`; `size` counts what comes after it. -/
structure MmapEntry where
  size : Word
  addr : BitVec 64
  len : BitVec 64
  type : Word
  size_ge : 20 ≤ size.toNat

namespace MmapEntry

def Available (e : MmapEntry) : Prop := e.type = MULTIBOOT_MEMORY_AVAILABLE

instance : DecidablePred Available := fun e ↦ inferInstanceAs (Decidable (e.type = _))

/-- Where the region really ends. -/
def finish (e : MmapEntry) : Nat := e.addr.toNat + e.len.toNat

/-- `start` and `end` in the loop -/
def start (e : MmapEntry) : Word := e.addr.setWidth 32
def stop (e : MmapEntry) : Word := e.start + e.len.setWidth 32

/-- The test of the loop. -/
def Passes (kernelEnd : Word) (e : MmapEntry) : Prop :=
  e.Available ∧ e.start ≤ kernelEnd ∧ e.stop > kernelEnd

instance (kernelEnd : Word) : DecidablePred (Passes kernelEnd) :=
  fun e ↦ inferInstanceAs (Decidable (e.Available ∧ _))

end MmapEntry

def readQuad (mem : Memory) (a : Word) : BitVec 64 := readWord mem (a + 4) ++ readWord mem a

/-- The entries stand one after the other from `a` on. -/
def LaidOut (mem : Memory) : Word → List MmapEntry → Prop
  | _, [] => True
  | a, e :: es =>
    readWord mem a = e.size ∧ readQuad mem (a + 4) = e.addr ∧ readQuad mem (a + 12) = e.len ∧
      readWord mem (a + 20) = e.type ∧ LaidOut mem (a + e.size + 4) es

def mapLength (es : List MmapEntry) : Nat := (es.map fun e ↦ e.size.toNat + 4).sum

/-- A boot loader has left the map `es`, and no address in it wraps. -/
structure MapOf (mem : Memory) (mbinfo : MultibootInfo) (es : List MmapEntry) : Prop where
  flag : mbinfo.flags &&& MULTIBOOT_INFO_MEM_MAP ≠ 0
  laidOut : LaidOut mem mbinfo.mmapAddr es
  length : mbinfo.mmapLength.toNat = mapLength es
  noWrap : mbinfo.mmapAddr.toNat + mapLength es < 2 ^ 32

/-- What is left for the heap is RAM, and a region below 4 GiB that holds the end of the kernel is
found. -/
structure HeapInRam (mbinfo : MultibootInfo) (es : List MmapEntry) (kernelEnd : Word)
    (s : State) : Prop where
  inRam : ∀ s', internalReadMultibootinfo mbinfo kernelEnd s = .ok s' → ∃ e ∈ es, e.Available ∧
    ∀ x, kernelEnd.toNat ≤ x → x < s'.kheapMaxEnd.toNat → e.addr.toNat ≤ x ∧ x < e.finish
  found : (∃ e ∈ es, e.Available ∧ e.finish ≤ 2 ^ 32 ∧ e.addr.toNat ≤ kernelEnd.toNat ∧
    kernelEnd.toNat < e.finish) → ∃ s', internalReadMultibootinfo mbinfo kernelEnd s = .ok s'

/-- If an entry passes the test, the first one that does starts below 4 GiB, or another region takes
in what it stands for; if none does, no region with the end of the kernel ends at 4 GiB. -/
def Harmless (es : List MmapEntry) (kernelEnd : Word) : Prop :=
  match es.find? (MmapEntry.Passes kernelEnd) with
  | some e => e.addr.toNat < 2 ^ 32 ∨ ∃ e' ∈ es, e'.Available ∧
      e'.addr.toNat ≤ kernelEnd.toNat ∧ e.stop.toNat ≤ e'.finish
  | none => ∀ e ∈ es, e.Available → e.addr.toNat ≤ kernelEnd.toNat → e.finish ≠ 2 ^ 32

section

variable {mem : Memory} {mbinfo : MultibootInfo} {es : List MmapEntry} {e : MmapEntry}
  {kernelEnd a : Word} {s : State}

/-! ## The walk -/

theorem readQuad_low {q : BitVec 64} (h : readQuad mem a = q) : readWord mem a = q.setWidth 32 := by
  rw [← h]
  unfold readQuad
  exact (BitVec.setWidth_append_eq_right).symm

theorem mapLength_cons (e : MmapEntry) (es : List MmapEntry) :
    mapLength (e :: es) = e.size.toNat + 4 + mapLength es := by
  simp [mapLength]

theorem length_le_mapLength : ∀ es : List MmapEntry, es.length ≤ mapLength es
  | [] => Nat.zero_le _
  | e :: es => by
    rw [mapLength_cons, List.length_cons]
    have := length_le_mapLength es
    omega

/-- The walk finds the first entry that passes the test. -/
theorem mmapWalk_eq {last : Word} (hlast : mbinfo.mmapAddr + mbinfo.mmapLength = last) :
    ∀ {es : List MmapEntry} {n : Nat} {a : Word}, LaidOut mem a es → es.length < n →
    a.toNat + mapLength es = last.toNat →
    mmapWalk mem mbinfo kernelEnd n a =
      .ok ((es.find? (MmapEntry.Passes kernelEnd)).map MmapEntry.stop) := by
  intro es
  induction es with
  | nil =>
    intro n a _ hn hend
    obtain ⟨n, rfl⟩ : ∃ m, n = m + 1 := ⟨n - 1, by simp at hn; omega⟩
    have hdone : ¬ a < last := by
      have : mapLength [] = 0 := rfl
      rw [BitVec.lt_def]
      omega
    rw [mmapWalk, hlast, if_neg hdone]
    rfl
  | cons e es ih =>
    intro n a hlaid hn hend
    obtain ⟨n, rfl⟩ : ∃ m, n = m + 1 := ⟨n - 1, by simp at hn; omega⟩
    obtain ⟨hsize, haddr, hlen, htype, hrest⟩ := hlaid
    rw [mapLength_cons] at hend
    have hmore : a < last := by
      rw [BitVec.lt_def]
      omega
    have hnext : (a + e.size + 4).toNat = a.toNat + (e.size.toNat + 4) := by
      have := last.isLt
      have hfour : (4 : Word).toNat = 4 := rfl
      rw [BitVec.toNat_add, BitVec.toNat_add, hfour]
      omega
    rw [mmapWalk, hlast, if_pos hmore]
    dsimp only
    rw [readQuad_low haddr, readQuad_low hlen, htype, hsize]
    show (if e.Passes kernelEnd then .ok (some e.stop)
      else mmapWalk mem mbinfo kernelEnd n (a + e.size + 4)) = _
    by_cases hp : e.Passes kernelEnd
    · rw [if_pos hp, List.find?_cons_of_pos (by simpa using hp)]
      rfl
    · rw [if_neg hp, List.find?_cons_of_neg (by simpa using hp)]
      exact ih hrest (by simpa using hn) (by omega)

theorem internalReadMultibootinfo_eq (h : MapOf s.mem mbinfo es) (kernelEnd : Word) :
    internalReadMultibootinfo mbinfo kernelEnd s =
      match es.find? (MmapEntry.Passes kernelEnd) with
      | some e => .ok { s with kheapMaxEnd := e.stop }
      | none => .error (.panic "kmalloc_init(): failed to find valid memory block") := by
  have hlen : es.length < walkLimit := by
    have := length_le_mapLength es
    have := h.noWrap
    unfold walkLimit
    omega
  have hend : mbinfo.mmapAddr.toNat + mapLength es =
      (mbinfo.mmapAddr + mbinfo.mmapLength).toNat := by
    rw [BitVec.toNat_add, h.length, Nat.mod_eq_of_lt h.noWrap]
  unfold internalReadMultibootinfo
  have hflag : (mbinfo.flags &&& MULTIBOOT_INFO_MEM_MAP != 0) = true := by simpa using h.flag
  simp only [kernelAssert, hflag, if_true, ok_bind, mmapWalk_eq rfl h.laidOut hlen hend]
  cases es.find? (MmapEntry.Passes kernelEnd) <;> rfl

/-! ## Truncation -/

theorem start_of_lt (h : e.addr.toNat < 2 ^ 32) : e.start.toNat = e.addr.toNat := by
  unfold MmapEntry.start
  rw [BitVec.toNat_setWidth, Nat.mod_eq_of_lt h]

/-- The end of the region, as far as it fits in a word. -/
theorem stop_toNat (e : MmapEntry) : e.stop.toNat = e.finish % 2 ^ 32 := by
  unfold MmapEntry.stop MmapEntry.start MmapEntry.finish
  rw [BitVec.toNat_add, BitVec.toNat_setWidth, BitVec.toNat_setWidth]
  omega

theorem inRam_of_lt (hp : e.Passes kernelEnd) (h : e.addr.toNat < 2 ^ 32) :
    e.addr.toNat ≤ kernelEnd.toNat ∧ e.stop.toNat ≤ e.finish := by
  have hstart := BitVec.le_def.mp hp.2.1
  rw [start_of_lt h] at hstart
  rw [stop_toNat]
  exact ⟨hstart, Nat.mod_le _ _⟩

/-- A region above 4 GiB does not hold the end of the kernel. -/
theorem lt_of_contains (h : e.addr.toNat ≤ kernelEnd.toNat) : e.addr.toNat < 2 ^ 32 :=
  Nat.lt_of_le_of_lt h kernelEnd.isLt

/-- Of the regions below 4 GiB that hold the end of the kernel, only those that end at 4 GiB fail
the test. -/
theorem passes_of_finish_lt (ha : e.Available) (h₁ : e.addr.toNat ≤ kernelEnd.toNat)
    (h₂ : kernelEnd.toNat < e.finish) (h₃ : e.finish < 2 ^ 32) : e.Passes kernelEnd := by
  refine ⟨ha, ?_, ?_⟩
  · rw [BitVec.le_def, start_of_lt (lt_of_contains h₁)]
    exact h₁
  · show kernelEnd.toNat < e.stop.toNat
    rw [stop_toNat, Nat.mod_eq_of_lt h₃]
    exact h₂

end

/-! ## A region above 4 GiB -/

/-- 1 GiB of RAM from 4 GiB and 1 MiB on, and 126 MiB from 1 MiB on. -/
def highRegion : MmapEntry := ⟨20, 0x100100000, 0x40000000, MULTIBOOT_MEMORY_AVAILABLE, by decide⟩
def lowRegion : MmapEntry := ⟨20, 0x100000, 0x7E00000, MULTIBOOT_MEMORY_AVAILABLE, by decide⟩

def writeEntry (mem : Memory) (a : Word) (e : MmapEntry) : Memory :=
  let mem := writeWord mem a e.size
  let mem := writeWord mem (a + 4) (e.addr.setWidth 32)
  let mem := writeWord mem (a + 8) ((e.addr >>> 32).setWidth 32)
  let mem := writeWord mem (a + 12) (e.len.setWidth 32)
  let mem := writeWord mem (a + 16) ((e.len >>> 32).setWidth 32)
  writeWord mem (a + 20) e.type

/-- Both of them, at `0x9000`. -/
def twoRegions : Memory := writeEntry (writeEntry ⟨fun _ ↦ 0⟩ 0x9000 highRegion) 0x9018 lowRegion

def twoRegionsInfo : MultibootInfo :=
  { flags := MULTIBOOT_INFO_MEM_MAP, mmapLength := 48, mmapAddr := 0x9000 }

theorem twoRegions_map : MapOf (boot twoRegions).mem twoRegionsInfo [highRegion, lowRegion] where
  flag := by decide
  laidOut := by
    refine ⟨?_, ?_, ?_, ?_, ?_, ?_, ?_, ?_, trivial⟩ <;> decide +kernel
  length := by decide
  noWrap := by decide

end AlienOS.Heap
