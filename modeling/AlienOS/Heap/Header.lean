import AlienOS.Heap.Kmalloc

/-! What the header accessors read after each header write. -/

open AlienOS.Lib

namespace AlienOS.Heap

/-- A block header of `size` bytes with its alloc bit and magic number. -/
structure HeaderAt (mem : Memory) (p : Word) (size : Nat) (used : Bool) : Prop where
  size : (kmGetsize mem p).toNat = size
  alloc : kmIsalloc mem p = used
  magic : kmCheckmagic mem p = true

/-! ## The metadata word -/

theorem kmGetsize_toNat (mem : Memory) (p : Word) :
    (kmGetsize mem p).toNat = (kmMetadata mem p).toNat / 16 * 16 :=
  toNat_and_not_low (kmMetadata mem p) 4

theorem kmGetsize_dvd (mem : Memory) (p : Word) : 16 ∣ (kmGetsize mem p).toNat := by
  rw [kmGetsize_toNat]; exact Nat.dvd_mul_left _ _

theorem kmIsalloc_eq (mem : Memory) (p : Word) :
    kmIsalloc mem p = decide ((kmMetadata mem p).toNat % 2 = 1) := by
  have h : (kmMetadata mem p &&& KMALLOC_ALLOC_BIT).toNat = (kmMetadata mem p).toNat % 2 :=
    toNat_and_low (kmMetadata mem p) (k := 1) (by decide)
  have h0 : kmMetadata mem p &&& KMALLOC_ALLOC_BIT ≠ 0 ↔ (kmMetadata mem p).toNat % 2 = 1 := by
    rw [Ne, ← BitVec.toNat_inj, h]
    change ¬ _ = 0 ↔ _
    omega
  rw [kmIsalloc, ← decide_eq_decide.mpr h0, bne, beq_eq_decide, decide_not]

theorem kmMetadata_kmSetsize (mem : Memory) (p size : Word) (hs : 16 ∣ size.toNat) :
    (kmMetadata (kmSetsize mem p size) p).toNat =
      size.toNat + (kmMetadata mem p).toNat % 16 := by
  rw [kmMetadata, kmSetsize, readWord_writeWord]
  exact toNat_low_or _ size (k := 4) (by decide) hs

theorem kmMetadata_kmClearalloc (mem : Memory) (p : Word) :
    (kmMetadata (kmClearalloc mem p) p).toNat = (kmMetadata mem p).toNat / 2 * 2 := by
  rw [kmMetadata, kmClearalloc, readWord_writeWord]
  exact toNat_and_not_low _ 1

theorem kmMetadata_kmSetalloc (mem : Memory) (p : Word) :
    (kmMetadata (kmSetalloc mem p) p).toNat = (kmMetadata mem p).toNat / 2 * 2 + 1 := by
  have hc : (kmMetadata mem p &&& ~~~KMALLOC_ALLOC_BIT).toNat =
      (kmMetadata mem p).toNat / 2 * 2 := toNat_and_not_low _ 1
  have hor := toNat_low_or KMALLOC_ALLOC_BIT (kmMetadata mem p &&& ~~~KMALLOC_ALLOC_BIT)
    (k := 1) (by decide) (by rw [hc]; exact Nat.dvd_mul_left _ _)
  rw [kmMetadata, kmSetalloc, readWord_writeWord, BitVec.or_comm]
  exact hor.trans (by rw [hc]; rfl)

/-! ## Each write and its window -/

section

variable {mem : Memory} {p : Word}

theorem changesWithin_kmSetnext (mem : Memory) (next : Word) (hp : p.toNat + 16 ≤ 2 ^ 32) :
    ChangesWithin (fun x ↦ p.toNat + 4 ≤ x ∧ x < p.toNat + 8) mem (kmSetnext mem p next) := by
  have h4 : (p + 4).toNat = p.toNat + 4 := by bv_omega
  have h := changesWithin_writeWord mem next (a := p + 4) (by omega)
  rw [h4] at h
  exact h

theorem changesWithin_kmSetmagic (hp : p.toNat + 16 ≤ 2 ^ 32) :
    ChangesWithin (fun x ↦ p.toNat + 8 ≤ x ∧ x < p.toNat + 12) mem (kmSetmagic mem p) := by
  have h8 : (p + 8).toNat = p.toNat + 8 := by bv_omega
  have h := changesWithin_writeWord mem KMALLOC_MAGIC (a := p + 8) (by omega)
  rw [h8] at h
  exact h

theorem kmMetadata_congr {mem' : Memory} {S : Nat → Prop} (h : ChangesWithin S mem mem')
    (hp : p.toNat + 16 ≤ 2 ^ 32) (hS : ∀ x, p.toNat ≤ x → x < p.toNat + 4 → ¬ S x) :
    kmMetadata mem' p = kmMetadata mem p := h.readWord (by omega) hS

theorem kmNext_congr {mem' : Memory} {S : Nat → Prop} (h : ChangesWithin S mem mem')
    (hp : p.toNat + 16 ≤ 2 ^ 32) (hS : ∀ x, p.toNat + 4 ≤ x → x < p.toNat + 8 → ¬ S x) :
    kmNext mem' p = kmNext mem p := by
  have h4 : (p + 4).toNat = p.toNat + 4 := by bv_omega
  exact h.readWord (by omega) fun x h₁ h₂ ↦ hS x (by omega) (by omega)

theorem kmCheckmagic_congr {mem' : Memory} {S : Nat → Prop} (h : ChangesWithin S mem mem')
    (hp : p.toNat + 16 ≤ 2 ^ 32) (hS : ∀ x, p.toNat + 8 ≤ x → x < p.toNat + 12 → ¬ S x) :
    kmCheckmagic mem' p = kmCheckmagic mem p := by
  have h8 : (p + 8).toNat = p.toNat + 8 := by bv_omega
  rw [kmCheckmagic, kmCheckmagic,
    h.readWord (by omega) fun x h₁ h₂ ↦ hS x (by omega) (by omega)]

/-- A header survives every change outside its metadata and its magic number. -/
theorem HeaderAt.congr {mem' : Memory} {S : Nat → Prop} {n : Nat} {used : Bool}
    (hd : HeaderAt mem p n used) (h : ChangesWithin S mem mem') (hp : p.toNat + 16 ≤ 2 ^ 32)
    (hm : ∀ x, p.toNat ≤ x → x < p.toNat + 4 → ¬ S x)
    (hg : ∀ x, p.toNat + 8 ≤ x → x < p.toNat + 12 → ¬ S x) : HeaderAt mem' p n used := by
  have hw := kmMetadata_congr h hp hm
  refine ⟨?_, ?_, ?_⟩
  · rw [kmGetsize, hw]; exact hd.size
  · rw [kmIsalloc, hw]; exact hd.alloc
  · rw [kmCheckmagic_congr h hp hg]; exact hd.magic

theorem HeaderAt.kmSetnext {n : Nat} {used : Bool} (hd : HeaderAt mem p n used) (next : Word)
    (hp : p.toNat + 16 ≤ 2 ^ 32) : HeaderAt (kmSetnext mem p next) p n used :=
  hd.congr (changesWithin_kmSetnext mem next hp) hp (fun _ _ _ h ↦ by omega) fun _ _ _ h ↦ by omega

@[simp] theorem kmNext_kmSetnext (mem : Memory) (p next : Word) :
    kmNext (kmSetnext mem p next) p = next := readWord_writeWord _ _ _

theorem changesWithin_metadata (mem : Memory) (w : Word) (hp : p.toNat + 16 ≤ 2 ^ 32) :
    ChangesWithin (fun x ↦ p.toNat ≤ x ∧ x < p.toNat + 4) mem (writeWord mem p w) :=
  changesWithin_writeWord mem w (by omega)

/-- Writing the metadata word leaves the other two header words as they are. -/
theorem metadata_write_rest (w : Word) (hp : p.toNat + 16 ≤ 2 ^ 32) :
    kmNext (writeWord mem p w) p = kmNext mem p ∧
      kmCheckmagic (writeWord mem p w) p = kmCheckmagic mem p :=
  have h := changesWithin_metadata mem w hp
  ⟨kmNext_congr h hp fun _ _ _ h ↦ by omega, kmCheckmagic_congr h hp fun _ _ _ h ↦ by omega⟩

theorem HeaderAt.kmSetsize {n : Nat} {used : Bool} (hd : HeaderAt mem p n used) (size : Word)
    (hs : 16 ∣ size.toNat) (hp : p.toNat + 16 ≤ 2 ^ 32) :
    HeaderAt (kmSetsize mem p size) p size.toNat used := by
  have hm := kmMetadata_kmSetsize mem p size hs
  refine ⟨by rw [kmGetsize_toNat, hm]; omega, ?_, (metadata_write_rest _ hp).2.trans hd.magic⟩
  have ha := hd.alloc
  rw [kmIsalloc_eq] at ha ⊢
  rw [hm, ← ha]
  congr 1
  rw [eq_iff_iff]
  omega

theorem HeaderAt.kmSetalloc {n : Nat} {used : Bool} (hd : HeaderAt mem p n used)
    (hp : p.toNat + 16 ≤ 2 ^ 32) : HeaderAt (kmSetalloc mem p) p n true := by
  have hm := kmMetadata_kmSetalloc mem p
  have hs := hd.size
  rw [kmGetsize_toNat] at hs
  refine ⟨by rw [kmGetsize_toNat, hm]; omega, ?_, (metadata_write_rest _ hp).2.trans hd.magic⟩
  rw [kmIsalloc_eq, hm, decide_eq_true_eq]
  omega

theorem HeaderAt.kmClearalloc {n : Nat} {used : Bool} (hd : HeaderAt mem p n used)
    (hp : p.toNat + 16 ≤ 2 ^ 32) : HeaderAt (kmClearalloc mem p) p n false := by
  have hm := kmMetadata_kmClearalloc mem p
  have hs := hd.size
  rw [kmGetsize_toNat] at hs
  refine ⟨by rw [kmGetsize_toNat, hm]; omega, ?_, (metadata_write_rest _ hp).2.trans hd.magic⟩
  rw [kmIsalloc_eq, hm, decide_eq_false_iff_not]
  omega

theorem changesWithin_kmInitblock (mem : Memory) (size : Word) (hp : p.toNat + 16 ≤ 2 ^ 32) :
    ChangesWithin (fun x ↦ p.toNat ≤ x ∧ x < p.toNat + 12) mem (kmInitblock mem p size) :=
  (((changesWithin_metadata _ _ hp).mono fun _ h ↦ by omega).trans
    ((changesWithin_metadata _ _ hp).mono fun _ h ↦ by omega)).trans
    ((changesWithin_kmSetmagic hp).mono fun _ h ↦ by omega)

/-- Whatever the memory held before, `km_initblock` leaves the header of an unallocated block. -/
theorem headerAt_kmInitblock (mem : Memory) (size : Word) (hs : 16 ∣ size.toNat)
    (hp : p.toNat + 16 ≤ 2 ^ 32) : HeaderAt (kmInitblock mem p size) p size.toNat false := by
  have hm : kmMetadata (kmInitblock mem p size) p =
      kmMetadata (kmClearalloc (kmSetsize mem p size) p) p :=
    kmMetadata_congr (changesWithin_kmSetmagic hp) hp fun _ _ _ h ↦ by omega
  have hv : (kmMetadata (kmInitblock mem p size) p).toNat =
      (size.toNat + (kmMetadata mem p).toNat % 16) / 2 * 2 := by
    rw [hm, kmMetadata_kmClearalloc, kmMetadata_kmSetsize mem p size hs]
  refine ⟨by rw [kmGetsize_toNat, hv]; omega, ?_, ?_⟩
  · rw [kmIsalloc_eq, hv, decide_eq_false_iff_not]; omega
  · rw [kmCheckmagic, kmInitblock, kmSetmagic, readWord_writeWord]; rfl

end

end AlienOS.Heap
