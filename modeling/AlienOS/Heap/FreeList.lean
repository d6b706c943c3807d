import AlienOS.Heap.Header
import AlienOS.Heap.Partition

/-!
# FreeList — the free list in memory and the list operations on it

`FreeSeg mem p l q` reads the chain of headers from `p` up to the pointer `q` as the list `l` of
intervals.  Each operation of `kmalloc.c` on the list is given by what it does to that list and by
the bytes it may change.
-/

open AlienOS.Lib

namespace AlienOS.Heap

def FreeSeg (mem : Memory) : Word → List Interval → Word → Prop
  | p, [], q => p = q
  | p, i :: l, q =>
    p ≠ NULL ∧ p.toNat = i.lo ∧ HeaderAt mem p i.len false ∧ FreeSeg mem (kmNext mem p) l q

theorem freeSeg_append {mem : Memory} {p q : Word} {l m : List Interval} :
    FreeSeg mem p (l ++ m) q ↔ ∃ r, FreeSeg mem p l r ∧ FreeSeg mem r m q := by
  induction l generalizing p with
  | nil =>
    constructor
    · exact fun h ↦ ⟨p, rfl, h⟩
    · rintro ⟨r, hr, h⟩
      rwa [show p = r from hr]
  | cons i l ih =>
    simp only [List.cons_append, FreeSeg, ih]
    constructor
    · rintro ⟨h₁, h₂, h₃, r, h₄, h₅⟩
      exact ⟨r, ⟨h₁, h₂, h₃, h₄⟩, h₅⟩
    · rintro ⟨r, ⟨h₁, h₂, h₃, h₄⟩, h₅⟩
      exact ⟨h₁, h₂, h₃, r, h₄, h₅⟩

/-- A chain survives every change outside the headers on it. -/
theorem FreeSeg.congr {mem mem' : Memory} {p q : Word} {l : List Interval} {S : Nat → Prop}
    (h : FreeSeg mem p l q) (hc : ChangesWithin S mem mem') (hb : ∀ i ∈ l, IsBlock i)
    (hS : ∀ i ∈ l, ∀ x, i.lo ≤ x → x < i.lo + 12 → ¬ S x) : FreeSeg mem' p l q := by
  induction l generalizing p with
  | nil => exact h
  | cons i l ih =>
    obtain ⟨h₁, h₂, h₃, h₄⟩ := h
    have hi := (hb i List.mem_cons_self).bounds
    have hs := hS i List.mem_cons_self
    have hp : p.toNat + 16 ≤ 2 ^ 32 := by omega
    refine ⟨h₁, h₂, h₃.congr hc hp (fun x _ _ ↦ hs x (by omega) (by omega))
      (fun x _ _ ↦ hs x (by omega) (by omega)), ?_⟩
    rw [kmNext_congr hc hp fun x _ _ ↦ hs x (by omega) (by omega)]
    exact ih h₄ (fun j hj ↦ hb j (List.mem_cons_of_mem _ hj))
      fun j hj ↦ hS j (List.mem_cons_of_mem _ hj)

/-- A chain survives every change inside a block that lies apart from it. -/
theorem FreeSeg.congr_apart {mem mem' : Memory} {p q : Word} {l : List Interval} {u : Interval}
    {S : Nat → Prop} (h : FreeSeg mem p l q) (hc : ChangesWithin S mem mem')
    (hb : ∀ i ∈ l, IsBlock i) (hS : ∀ x, S x → x ∈ u) (hap : ∀ i ∈ l, u.Apart i) :
    FreeSeg mem' p l q := by
  refine h.congr hc hb fun i hi x h₁ h₂ h₃ ↦ ?_
  have := (hb i hi).bounds
  exact (hap i hi).not_mem (hS x h₃) (Interval.mem_iff.mpr (by omega))

/-- The chain to `NULL` through no block is empty, and through a block starts at its address. -/
theorem FreeSeg.eq_null_iff {mem : Memory} {p : Word} {l : List Interval}
    (h : FreeSeg mem p l NULL) : p = NULL ↔ l = [] := by
  cases l with
  | nil => exact iff_of_true h rfl
  | cons i l => exact iff_of_false h.1 (List.cons_ne_nil _ _)

theorem FreeSeg.header_of_mem {mem : Memory} {p q : Word} {l : List Interval} {i : Interval}
    (h : FreeSeg mem p l q) (hi : i ∈ l) : HeaderAt mem (BitVec.ofNat 32 i.lo) i.len false := by
  induction l generalizing p with
  | nil => exact absurd hi List.not_mem_nil
  | cons j l ih =>
    rcases List.mem_cons.mp hi with rfl | hi
    · rw [← h.2.1, BitVec.ofNat_toNat, BitVec.setWidth_eq]
      exact h.2.2.1
    · exact ih h.2.2.2 hi

/-! ## Coalescing -/

theorem kmCoalesce_spec {mem : Memory} {p : Word} {i : Interval} {l : List Interval}
    (h : FreeSeg mem p (i :: l) NULL) (hb : ∀ j ∈ i :: l, IsBlock j)
    (hs : ∀ j ∈ l, i.hi ≤ j.lo) :
    FreeSeg (kmCoalesce mem p) p (absorb i l) NULL ∧
      ChangesWithin (fun x ↦ i.lo ≤ x ∧ x < i.lo + 8) mem (kmCoalesce mem p) := by
  obtain ⟨h₁, h₂, h₃, h₄⟩ := h
  have hi := (hb i List.mem_cons_self).bounds
  have hp : p.toNat + 16 ≤ 2 ^ 32 := by omega
  have hsz := h₃.size
  cases l with
  | nil =>
    rw [kmCoalesce, if_neg (fun hc ↦ hc.1 h₄)]
    exact ⟨⟨h₁, h₂, h₃, h₄⟩, .refl _ _⟩
  | cons j l =>
    obtain ⟨k₁, k₂, k₃, k₄⟩ := h₄
    have hj := (hb j (by simp)).bounds
    have hij := hs j List.mem_cons_self
    have htouch : p + kmGetsize mem p = kmNext mem p ↔ i.hi = j.lo := by
      rw [← BitVec.toNat_inj, BitVec.toNat_add, hsz, h₂, k₂, Interval.hi,
        Nat.mod_eq_of_lt hi.2.2]
    rw [kmCoalesce, absorb]
    by_cases ht : i.hi = j.lo
    · rw [if_pos ⟨k₁, htouch.mpr ht⟩, if_pos ht]
      dsimp only
      generalize hsum : kmGetsize mem p + kmGetsize mem (kmNext mem p) = sum
      have hsum' : sum.toNat = i.len + j.len := by
        simp only [Interval.hi] at ht
        rw [← hsum, BitVec.toNat_add, hsz, k₃.size, Nat.mod_eq_of_lt (by omega)]
      have hsize := h₃.kmSetsize sum
        (by rw [hsum']; exact Nat.dvd_add (hb i (by simp)).len_dvd (hb j (by simp)).len_dvd) hp
      have hc₁ : ChangesWithin (fun x ↦ i.lo ≤ x ∧ x < i.lo + 8) mem (kmSetsize mem p sum) :=
        (changesWithin_metadata _ _ hp).mono fun _ _ ↦ by omega
      have hn : kmNext (kmSetsize mem p sum) p = kmNext mem p := (metadata_write_rest _ hp).1
      have hnn : kmNext (kmSetsize mem p sum) (kmNext mem p) = kmNext mem (kmNext mem p) :=
        kmNext_congr hc₁ (by omega) fun _ _ _ _ ↦ by
          simp only [Interval.hi] at hij; omega
      rw [hn, hnn]
      have hc : ChangesWithin (fun x ↦ i.lo ≤ x ∧ x < i.lo + 8) mem
          (kmSetnext (kmSetsize mem p sum) p (kmNext mem (kmNext mem p))) :=
        hc₁.trans ((changesWithin_kmSetnext _ _ hp).mono fun _ _ ↦ by omega)
      refine ⟨⟨h₁, h₂, ?_, ?_⟩, hc⟩
      · rw [← hsum']; exact hsize.kmSetnext _ hp
      · rw [kmNext_kmSetnext]
        refine k₄.congr hc (fun k hk ↦ hb k (by simp [hk])) fun k hk x _ _ _ ↦ ?_
        have := hs k (List.mem_cons_of_mem _ hk)
        simp only [Interval.hi] at this
        omega
    · rw [if_neg (fun hc ↦ ht (htouch.mp hc.2)), if_neg ht]
      exact ⟨⟨h₁, h₂, h₃, k₁, k₂, k₃, k₄⟩, .refl _ _⟩

/-! ## Insertion -/

theorem freeList_length_lt {l : List Interval} (hs : Separated l) (hb : ∀ i ∈ l, IsBlock i) :
    l.length < walkLimit := by
  have h := hs.length_add_le (a := 1) (b := 2 ^ 32) (by decide) fun i hi ↦ by
    have := hb i hi
    exact ⟨this.len_pos, this.lo_pos, Nat.le_of_lt this.hi_lt⟩
  rw [walkLimit]
  omega

/-- The walk of `km_insert` stops at the last block below the new one. -/
theorem kmInsertWalk_spec {mem : Memory} {b prev : Word} {i : Interval} {l : List Interval}
    {fuel : Nat} (h : FreeSeg mem prev (i :: l) NULL) (hs : Separated (i :: l))
    (hfuel : l.length < fuel) :
    ∃ l₁ k l₂ pk, i :: l = l₁ ++ k :: l₂ ∧
      kmInsertWalk mem b fuel prev (kmNext mem prev) = .ok (pk, kmNext mem pk) ∧
      FreeSeg mem prev l₁ pk ∧ FreeSeg mem pk (k :: l₂) NULL ∧
      (∀ j ∈ l₁ ++ [k], j = i ∨ j.lo < b.toNat) ∧ ∀ j ∈ l₂, b.toNat ≤ j.lo := by
  induction l generalizing i prev fuel with
  | nil =>
    have hn : kmNext mem prev = NULL := h.2.2.2
    obtain ⟨fuel, rfl⟩ : ∃ f, fuel = f + 1 := ⟨fuel - 1, by omega⟩
    refine ⟨[], i, [], prev, rfl, ?_, rfl, h, by simp, by simp⟩
    rw [kmInsertWalk, if_neg (fun hc ↦ hc.1 hn)]
  | cons j l ih =>
    obtain ⟨fuel, rfl⟩ : ∃ f, fuel = f + 1 := ⟨fuel - 1, by simp at hfuel; omega⟩
    have hj : FreeSeg mem (kmNext mem prev) (j :: l) NULL := h.2.2.2
    by_cases hlt : kmNext mem prev < b
    · obtain ⟨l₁, k, l₂, pk, he, hw, hf₁, hf₂, hlo, hhi⟩ :=
        ih hj hs.tail (Nat.lt_of_succ_lt_succ hfuel)
      refine ⟨i :: l₁, k, l₂, pk, by rw [he]; rfl, ?_, ⟨h.1, h.2.1, h.2.2.1, hf₁⟩, hf₂, ?_, hhi⟩
      · rw [kmInsertWalk, if_pos ⟨hj.1, hlt⟩, hw]
      · intro x hx
        rcases List.mem_cons.mp hx with rfl | hx
        · exact .inl rfl
        · refine .inr ?_
          rcases hlo x hx with rfl | hx
          · rw [← hj.2.1]; exact hlt
          · exact hx
    · refine ⟨[], i, j :: l, prev, rfl, ?_, rfl, h, by simp, fun k hk ↦ ?_⟩
      · rw [kmInsertWalk, if_neg (fun hc ↦ hlt hc.2)]
      · have hjb : b.toNat ≤ j.lo := by rw [← hj.2.1]; exact BitVec.not_lt.mp hlt
        rcases List.mem_cons.mp hk with rfl | hk
        · exact hjb
        · have := hs.tail.head_lt hk
          simp only [Interval.hi] at this
          omega

/-- The writes of `km_insert` between `prev` and its successor, with both merges. -/
theorem kmInsert_between {mem mem₁ mem₂ : Memory} {b pk : Word} {i k : Interval}
    {l : List Interval} (e₁ : mem₁ = kmSetnext mem b (kmNext mem pk))
    (e₂ : mem₂ = kmSetnext mem₁ pk b) (hb : b ≠ NULL) (hbi : b.toNat = i.lo)
    (hh : HeaderAt mem b i.len false) (h : FreeSeg mem pk (k :: l) NULL) (hi : IsBlock i)
    (hk : ∀ j ∈ k :: l, IsBlock j) (hki : k.hi ≤ i.lo) (hil : ∀ j ∈ l, i.hi ≤ j.lo) :
    FreeSeg (kmCoalesce (kmCoalesce mem₂ b) pk) pk (absorb k (absorb i l)) NULL ∧
      ChangesWithin (fun x ↦ x ∈ i ∨ x ∈ k) mem (kmCoalesce (kmCoalesce mem₂ b) pk) := by
  obtain ⟨hpk, hpk', hhk, hl⟩ := h
  have bi := hi.bounds
  have bk := (hk k List.mem_cons_self).bounds
  have hbl : ∀ j ∈ l, IsBlock j := fun j hj ↦ hk j (List.mem_cons_of_mem _ hj)
  have hil' : ∀ j ∈ i :: l, IsBlock j := List.forall_mem_cons.mpr ⟨hi, hbl⟩
  have hlk : ∀ j ∈ l, i.lo + i.len ≤ j.lo := hil
  simp only [Interval.hi] at hki
  have hb16 : b.toNat + 16 ≤ 2 ^ 32 := by omega
  have hp16 : pk.toNat + 16 ≤ 2 ^ 32 := by omega
  -- link the new block in front of `l`
  have c₁ : ChangesWithin _ mem mem₁ := e₁ ▸ changesWithin_kmSetnext mem (kmNext mem pk) hb16
  have f₁ : FreeSeg mem₁ b (i :: l) NULL := by
    refine ⟨hb, hbi, e₁ ▸ hh.kmSetnext _ hb16, ?_⟩
    rw [e₁, kmNext_kmSetnext, ← e₁]
    exact hl.congr c₁ hbl fun j hj x _ _ _ ↦ by have := hlk j hj; omega
  have k₁ : HeaderAt mem₁ pk k.len false :=
    hhk.congr c₁ hp16 (fun _ _ _ _ ↦ by omega) fun _ _ _ _ ↦ by omega
  -- link it behind `prev`
  have c₂ : ChangesWithin _ mem₁ mem₂ := e₂ ▸ changesWithin_kmSetnext mem₁ b hp16
  have f₂ : FreeSeg mem₂ b (i :: l) NULL :=
    f₁.congr c₂ hil' fun j hj x _ _ _ ↦ by
      rcases List.mem_cons.mp hj with rfl | hj
      · omega
      · have := hlk j hj; omega
  have k₂ : HeaderAt mem₂ pk k.len false := e₂ ▸ k₁.kmSetnext b hp16
  have n₂ : kmNext mem₂ pk = b := e₂ ▸ kmNext_kmSetnext _ _ _
  -- merge forwards, then backwards
  obtain ⟨f₃, c₃⟩ := kmCoalesce_spec f₂ hil' hil
  generalize kmCoalesce mem₂ b = mem₃ at f₃ c₃
  have f₃' : FreeSeg mem₃ pk (k :: absorb i l) NULL := by
    refine ⟨hpk, hpk', k₂.congr c₃ hp16 (fun _ _ _ _ ↦ by omega) (fun _ _ _ _ ↦ by omega), ?_⟩
    rw [kmNext_congr c₃ hp16 fun _ _ _ _ ↦ by omega, n₂]
    exact f₃
  have hge : ∀ j ∈ absorb i l, k.hi ≤ j.lo := fun j hj ↦ by
    rcases mem_absorb_lo hj with he | ⟨m, hm, he⟩
    · rw [he]; exact hki
    · have := hlk m hm
      simp only [Interval.hi]
      omega
  obtain ⟨f₄, c₄⟩ := kmCoalesce_spec f₃'
    (List.forall_mem_cons.mpr ⟨hk k List.mem_cons_self, isBlock_absorb hi hbl⟩) hge
  generalize kmCoalesce mem₃ pk = mem₄ at f₄ c₄
  have m₁ : ∀ x, b.toNat + 4 ≤ x ∧ x < b.toNat + 8 → x ∈ i ∨ x ∈ k :=
    fun x hx ↦ .inl (Interval.mem_iff.mpr (by omega))
  have m₂ : ∀ x, pk.toNat + 4 ≤ x ∧ x < pk.toNat + 8 → x ∈ i ∨ x ∈ k :=
    fun x hx ↦ .inr (Interval.mem_iff.mpr (by omega))
  have m₃ : ∀ x, i.lo ≤ x ∧ x < i.lo + 8 → x ∈ i ∨ x ∈ k :=
    fun x hx ↦ .inl (Interval.mem_iff.mpr (by omega))
  have m₄ : ∀ x, k.lo ≤ x ∧ x < k.lo + 8 → x ∈ i ∨ x ∈ k :=
    fun x hx ↦ .inr (Interval.mem_iff.mpr (by omega))
  exact ⟨f₄, ((((c₁.mono m₁).trans (c₂.mono m₂)).trans (c₃.mono m₃)).trans (c₄.mono m₄))⟩

/-- `km_insert` puts a free block that lies apart from the list into it, fully merged. -/
theorem kmInsert_spec {s : State} {b : Word} {i : Interval} {fs : List Interval}
    (hb : b.toNat = i.lo) (hh : HeaderAt s.mem b i.len false) (hi : IsBlock i)
    (hf : FreeSeg s.mem s.freeList fs NULL) (hs : Separated fs) (hblk : ∀ j ∈ fs, IsBlock j)
    (hap : ∀ j ∈ fs, i.Apart j) :
    ∃ mem' fl', kmInsert b s = .ok { s with mem := mem', freeList := fl' } ∧
      FreeSeg mem' fl' (insertMerge i fs) NULL ∧
      ChangesWithin (fun x ↦ x ∈ i ∨ Covers fs x) s.mem mem' := by
  have bi := hi.bounds
  have hb0 : b ≠ NULL := by
    rintro rfl
    have : i.lo = 0 := hb.symm
    omega
  have hb16 : b.toNat + 16 ≤ 2 ^ 32 := by omega
  rw [kmInsert, if_neg hb0]
  by_cases hfront : s.freeList = NULL ∨ b < s.freeList
  · -- the block becomes the head of the list
    rw [if_pos hfront]
    have hlt : ∀ j ∈ fs, i.lo < j.lo := by
      cases fs with
      | nil => simp
      | cons j fs =>
        have hj : i.lo < j.lo := by
          rw [← hb, ← hf.2.1]
          exact BitVec.lt_def.mp (hfront.resolve_left hf.1)
        intro m hm
        rcases List.mem_cons.mp hm with rfl | hm
        · exact hj
        · have := hs.head_lt hm
          simp only [Interval.hi] at this
          omega
    have hhi : ∀ j ∈ fs, i.hi ≤ j.lo := fun j hj ↦ by
      have h₁ := hlt j hj
      have h₂ := hap j hj
      have h₃ := (hblk j hj).bounds
      simp only [Interval.Apart, Interval.hi] at *
      omega
    have c₁ := changesWithin_kmSetnext s.mem s.freeList hb16
    have f₁ : FreeSeg (kmSetnext s.mem b s.freeList) b (i :: fs) NULL := by
      refine ⟨hb0, hb, hh.kmSetnext _ hb16, ?_⟩
      rw [kmNext_kmSetnext]
      exact hf.congr c₁ hblk fun j hj x _ _ _ ↦ by
        have := hhi j hj
        simp only [Interval.hi] at this
        omega
    obtain ⟨f₂, c₂⟩ := kmCoalesce_spec f₁ (List.forall_mem_cons.mpr ⟨hi, hblk⟩) hhi
    refine ⟨_, b, rfl, ?_, (c₁.mono ?_).trans (c₂.mono ?_)⟩
    · have : insertMerge i fs = absorb i fs := by
        cases fs with
        | nil => rfl
        | cons j fs => rw [insertMerge, if_pos (hlt j List.mem_cons_self)]
      rw [this]
      exact f₂
    · intro x hx; left; simp only [Interval.mem_iff]; omega
    · intro x hx; left; simp only [Interval.mem_iff]; omega
  · -- the block goes behind the last block below it
    rw [if_neg hfront]
    obtain ⟨hne, hge⟩ := not_or.mp hfront
    cases fs with
    | nil => exact absurd hf hne
    | cons h fs =>
      obtain ⟨l₁, k, l₂, pk, he, hw, g₁, g₂, hlo, hhi⟩ :=
        kmInsertWalk_spec (b := b) hf hs (Nat.lt_of_succ_lt (freeList_length_lt hs hblk))
      have hmem : ∀ j ∈ l₁ ++ k :: l₂, j ∈ h :: fs := fun j hj ↦ by rw [he]; exact hj
      have hblk' : ∀ j ∈ l₁ ++ k :: l₂, IsBlock j := fun j hj ↦ hblk j (hmem j hj)
      have hap' : ∀ j ∈ l₁ ++ k :: l₂, i.Apart j := fun j hj ↦ hap j (hmem j hj)
      have hlow : ∀ j ∈ l₁ ++ [k], j.lo ≤ i.lo := fun j hj ↦ by
        rcases hlo j hj with rfl | hj
        · rw [← hf.2.1, ← hb]; exact BitVec.not_lt.mp hge
        · omega
      have hki : k.hi ≤ i.lo := by
        have h₁ := hlow k (by simp)
        have h₂ := hap' k (by simp)
        have h₃ := (hblk' k (by simp)).bounds
        simp only [Interval.Apart, Interval.hi] at *
        omega
      have hil : ∀ j ∈ l₂, i.hi ≤ j.lo := fun j hj ↦ by
        have h₁ := hhi j hj
        have h₂ := hap' j (by simp [hj])
        have h₃ := (hblk' j (by simp [hj])).bounds
        simp only [Interval.Apart, Interval.hi] at *
        omega
      have hsk := g₂.2.2.1.size
      have hpk := g₂.2.1
      have a₂ : (pk + kmGetsize s.mem pk ≤ b) := by
        rw [BitVec.le_def, BitVec.toNat_add, hsk, hpk,
          Nat.mod_eq_of_lt (hblk' k (by simp)).hi_lt, hb]
        exact hki
      have a₃ : (kmNext s.mem pk == NULL || decide (b + kmGetsize s.mem b ≤ kmNext s.mem pk))
          = true := by
        have hn := g₂.2.2.2
        cases l₂ with
        | nil => rw [show kmNext s.mem pk = NULL from hn]; rfl
        | cons j l₂ =>
          rw [Bool.or_eq_true, decide_eq_true_eq, BitVec.le_def, BitVec.toNat_add, hh.size, hb,
            Nat.mod_eq_of_lt bi.2.2, hn.2.1]
          exact .inr (hil j (by simp))
      obtain ⟨f₁, c₁⟩ := kmInsert_between rfl rfl hb0 hb hh g₂ hi
        (fun j hj ↦ hblk' j (by simp only [List.mem_append]; exact .inr hj)) hki hil
      refine ⟨_, s.freeList, ?_, ?_, c₁.mono ?_⟩
      · rw [hw]
        simp only [bind, Except.bind, beq_self_eq_true, kernelAssert, if_true, decide_eq_true a₂,
          a₃]
      · rw [he, insertMerge_append (he ▸ hs) hlow fun j hj ↦ ?_, freeSeg_append]
        · refine ⟨pk, g₁.congr c₁ (fun j hj ↦ hblk' j (by simp [hj])) ?_, f₁⟩
          intro j hj x h₁ h₂
          have h₃ := (hblk' j (by simp [hj])).bounds
          have h₄ := hap' j (by simp [hj])
          have h₅ := (Separated.append (he ▸ hs)).2.2 j hj k (by simp)
          simp only [Interval.Apart, Interval.hi, Interval.mem_iff] at *
          omega
        · have := hil j hj
          simp only [Interval.hi] at this
          omega
      · rintro x (hx | hx)
        · exact .inl hx
        · exact .inr ⟨k, hmem k (by simp), hx⟩

/-! ## Removal -/

/-- Letting the block before `r` point past `r` takes `r` off the list. -/
theorem FreeSeg.unlink {mem : Memory} {p q r : Word} {l m : List Interval} {j k : Interval}
    (h₁ : FreeSeg mem p l q) (h₂ : FreeSeg mem q [j] r) (h₃ : FreeSeg mem r (k :: m) NULL)
    (hs : Separated (l ++ j :: k :: m)) (hb : ∀ x ∈ l ++ j :: k :: m, IsBlock x) :
    FreeSeg (kmSetnext mem q (kmNext mem r)) p (l ++ j :: m) NULL := by
  obtain ⟨q₁, q₂, q₃, -⟩ := h₂
  have hj := (hb j (by simp)).bounds
  have hq : q.toNat + 16 ≤ 2 ^ 32 := by omega
  have hc := changesWithin_kmSetnext mem (kmNext mem r) hq
  rw [freeSeg_append]
  refine ⟨q, h₁.congr hc (fun x hx ↦ hb x (by simp [hx])) fun x hx y _ _ _ ↦ ?_, q₁, q₂,
    q₃.kmSetnext _ hq, ?_⟩
  · have h := hs.append.2.2 x hx j (by simp)
    have hx' := (hb x (by simp [hx])).bounds
    simp only [Interval.hi] at h
    omega
  · rw [kmNext_kmSetnext]
    refine h₃.2.2.2.congr hc (fun x hx ↦ hb x (by simp [hx])) fun x hx y _ _ _ ↦ ?_
    have h := hs.append.2.1.head_lt (j := x) (by simp [hx])
    simp only [Interval.hi] at h
    omega

/-- The walk of `km_find` stops at the first block that is large enough, with the one before it. -/
theorem kmFindWalk_spec {mem : Memory} (size prev : Word) {cur : Word} {fs : List Interval} {fuel : Nat}
    (h : FreeSeg mem cur fs NULL) (hfuel : fs.length < fuel) :
    ((∀ j ∈ fs, j.len < size.toNat) ∧
        ∃ last, kmFindWalk mem size fuel prev cur = .ok (last, NULL)) ∨
      ∃ l k m last pk, fs = l ++ k :: m ∧ (∀ j ∈ l, j.len < size.toNat) ∧ size.toNat ≤ k.len ∧
        kmFindWalk mem size fuel prev cur = .ok (last, pk) ∧ FreeSeg mem cur l pk ∧
        FreeSeg mem pk (k :: m) NULL ∧
        (l = [] ∧ last = prev ∨
          ∃ l' j, l = l' ++ [j] ∧ FreeSeg mem cur l' last ∧ FreeSeg mem last [j] pk) := by
  induction fs generalizing prev cur fuel with
  | nil =>
    obtain ⟨fuel, rfl⟩ : ∃ f, fuel = f + 1 := ⟨fuel - 1, by simp at hfuel; omega⟩
    refine .inl ⟨by simp, prev, ?_⟩
    rw [kmFindWalk, if_neg (fun hc ↦ hc.1 h), show cur = NULL from h]
  | cons i fs ih =>
    obtain ⟨fuel, rfl⟩ : ∃ f, fuel = f + 1 := ⟨fuel - 1, by simp at hfuel; omega⟩
    have hsz := h.2.2.1.size
    by_cases hlt : kmGetsize mem cur < size
    · have hlt' : i.len < size.toNat := by rw [← hsz]; exact BitVec.lt_def.mp hlt
      have hw : kmFindWalk mem size (fuel + 1) prev cur =
          kmFindWalk mem size fuel cur (kmNext mem cur) := by
        rw [kmFindWalk, if_pos ⟨h.1, hlt⟩]
      rcases ih cur h.2.2.2 (Nat.lt_of_succ_lt_succ hfuel) with
        ⟨hall, last, hr⟩ | ⟨l, k, m, last, pk, he, hall, hk, hr, g₁, g₂, hl⟩
      · exact .inl ⟨List.forall_mem_cons.mpr ⟨hlt', hall⟩, last, hw.trans hr⟩
      · refine .inr ⟨i :: l, k, m, last, pk, by rw [he]; rfl,
          List.forall_mem_cons.mpr ⟨hlt', hall⟩, hk, hw.trans hr,
          ⟨h.1, h.2.1, h.2.2.1, g₁⟩, g₂, .inr ?_⟩
        rcases hl with ⟨rfl, rfl⟩ | ⟨l', j, rfl, g₃, g₄⟩
        · exact ⟨[], i, rfl, rfl, h.1, h.2.1, h.2.2.1, g₁⟩
        · exact ⟨i :: l', j, rfl, ⟨h.1, h.2.1, h.2.2.1, g₃⟩, g₄⟩
    · refine .inr ⟨[], i, fs, prev, cur, rfl, by simp, ?_, ?_, rfl, h, .inl ⟨rfl, rfl⟩⟩
      · rw [← hsz]; exact BitVec.not_lt.mp hlt
      · rw [kmFindWalk, if_neg (fun hc ↦ hlt hc.2)]

/-- What `km_find` returns when a free block is large enough: the first such block, taken off the
list. -/
def FirstFit (fs : List Interval) (t : Nat) (l : List Interval) (k : Interval)
    (m : List Interval) : Prop :=
  fs = l ++ k :: m ∧ (∀ j ∈ l, j.len < t) ∧ t ≤ k.len

theorem kmFind_spec {s : State} (size : Word) {fs : List Interval}
    (hf : FreeSeg s.mem s.freeList fs NULL) (hs : Separated fs) (hb : ∀ j ∈ fs, IsBlock j) :
    ((∀ j ∈ fs, j.len < size.toNat) ∧ kmFind size s = kmExtend size s) ∨
      ∃ l k m pk mem' fl', FirstFit fs size.toNat l k m ∧
        kmFind size s = .ok (pk, { s with mem := mem', freeList := fl' }) ∧
        pk ≠ NULL ∧ pk.toNat = k.lo ∧ HeaderAt mem' pk k.len false ∧
        FreeSeg mem' fl' (l ++ m) NULL ∧ ChangesWithin (Covers fs) s.mem mem' := by
  rcases kmFindWalk_spec size NULL hf (freeList_length_lt hs hb) with
    ⟨hall, last, hw⟩ | ⟨l, k, m, last, pk, he, hall, hk, hw, g₁, g₂, hl⟩
  · refine .inl ⟨hall, ?_⟩
    rw [kmFind, hw]
    simp only [bind, Except.bind, if_true]
  · right
    have hbk := (hb k (by rw [he]; simp)).bounds
    have hp16 : pk.toNat + 16 ≤ 2 ^ 32 := by have := g₂.2.1; omega
    -- the last write clears the link of the block taken off
    have clear : ∀ (mem₁ : Memory) (fl : Word), FreeSeg mem₁ fl (l ++ m) NULL →
        HeaderAt mem₁ pk k.len false → ChangesWithin (Covers fs) s.mem mem₁ →
        HeaderAt (kmSetnext mem₁ pk NULL) pk k.len false ∧
          FreeSeg (kmSetnext mem₁ pk NULL) fl (l ++ m) NULL ∧
          ChangesWithin (Covers fs) s.mem (kmSetnext mem₁ pk NULL) := by
      intro mem₁ fl h₁ h₂ h₃
      have hc := changesWithin_kmSetnext mem₁ NULL hp16
      refine ⟨h₂.kmSetnext _ hp16, h₁.congr hc (fun j hj ↦ hb j ?_) fun j hj x _ _ _ ↦ ?_,
        h₃.trans (hc.mono fun x hx ↦ ⟨k, by rw [he]; simp, Interval.mem_iff.mpr ?_⟩)⟩
      · rw [he]; rcases List.mem_append.mp hj with h | h <;> simp [h]
      · have hpk := g₂.2.1
        obtain ⟨s₁, s₂, s₃⟩ := (he ▸ hs : Separated (l ++ k :: m)).append
        rcases List.mem_append.mp hj with hj | hj
        · have h := s₃ j hj k (by simp)
          have hj' := (hb j (by rw [he]; simp [hj])).bounds
          simp only [Interval.hi] at h
          omega
        · have h := s₂.head_lt hj
          simp only [Interval.hi] at h
          omega
      · have := g₂.2.1; omega
    rcases hl with ⟨rfl, rfl⟩ | ⟨l', j, rfl, g₃, g₄⟩
    · have hfl : s.freeList = pk := g₁
      obtain ⟨c₁, c₂, c₃⟩ := clear s.mem (kmNext s.mem pk) g₂.2.2.2 g₂.2.2.1
        (.refl _ _)
      refine ⟨[], k, m, pk, _, _, ⟨he, hall, hk⟩, ?_, g₂.1, g₂.2.1, c₁, c₂, c₃⟩
      rw [kmFind, hw]
      simp only [bind, Except.bind, if_neg g₂.1, if_true]
    · have he' : fs = l' ++ j :: k :: m := by rw [he, List.append_assoc]; rfl
      have hj := (hb j (by rw [he']; simp)).bounds
      have hjp := g₄.2.1
      have hkp := g₂.2.1
      have hjk := ((he' ▸ hs : Separated (l' ++ j :: k :: m)).append.2.1).head_lt (j := k) (by simp)
      simp only [Interval.hi] at hjk
      have hl16 : last.toNat + 16 ≤ 2 ^ 32 := by omega
      have hc := changesWithin_kmSetnext s.mem (kmNext s.mem pk) hl16
      obtain ⟨c₁, c₂, c₃⟩ := clear (kmSetnext s.mem last (kmNext s.mem pk)) s.freeList
        (by
          rw [List.append_assoc]
          exact g₃.unlink g₄ g₂ (he' ▸ hs) (he' ▸ hb))
        (g₂.2.2.1.congr hc hp16 (fun _ _ _ _ ↦ by omega) fun _ _ _ _ ↦ by omega)
        (hc.mono fun x hx ↦ ⟨j, by rw [he']; simp, Interval.mem_iff.mpr (by omega)⟩)
      refine ⟨_, k, m, pk, _, _, ⟨he, hall, hk⟩, ?_, g₂.1, g₂.2.1, c₁, c₂, c₃⟩
      rw [kmFind, hw]
      simp only [bind, Except.bind, if_neg g₂.1, if_neg g₄.1]

/-! ## Splitting -/

theorem kmSplit_spec {s : State} {b t : Word} {i : Interval} {used : Bool} {fs : List Interval}
    (hb : b.toNat = i.lo) (hh : HeaderAt s.mem b i.len used) (hi : IsBlock i)
    (ht : 16 ∣ t.toNat) (ht0 : 0 < t.toNat) (hle : t.toNat ≤ i.len)
    (hf : FreeSeg s.mem s.freeList fs NULL) (hs : Separated fs) (hblk : ∀ j ∈ fs, IsBlock j)
    (hap : ∀ j ∈ fs, i.Apart j) :
    ∃ mem' fl', kmSplit b t s = .ok (b, { s with mem := mem', freeList := fl' }) ∧
      HeaderAt mem' b t.toNat used ∧ FreeSeg mem' fl' (splitFree i.lo i.len t.toNat fs) NULL ∧
      ChangesWithin
        (fun x ↦ (i.lo ≤ x ∧ x < i.lo + 4) ∨ (i.lo + t.toNat ≤ x ∧ x < i.hi) ∨ Covers fs x)
        s.mem mem' := by
  have bi := hi.bounds
  have hib : i.lo + i.len < 2 ^ 32 := hi.hi_lt
  have hld := hi.len_dvd
  have htw : (t + KMALLOC_MAX_INTERNAL_FRAG).toNat = t.toNat + 16 := by
    rw [BitVec.toNat_add]
    exact Nat.mod_eq_of_lt (by change t.toNat + 16 < 2 ^ 32; omega)
  have hcond : kmGetsize s.mem b < t + KMALLOC_MAX_INTERNAL_FRAG ↔ i.len = t.toNat := by
    rw [BitVec.lt_def, hh.size, htw]
    omega
  rw [kmSplit, splitFree]
  by_cases hc : i.len = t.toNat
  · rw [if_pos (hcond.mpr hc), if_pos hc]
    exact ⟨s.mem, s.freeList, rfl, hc ▸ hh, hf, .refl _ _⟩
  · rw [if_neg (fun h ↦ hc (hcond.mp h)), if_neg hc]
    have hlt : t.toNat < i.len := by omega
    have hrest : IsBlock ⟨i.lo + t.toNat, i.len - t.toNat⟩ := hi.rest ht hlt
    have br := hrest.bounds
    dsimp only at br
    have hbt : (b + t).toNat = i.lo + t.toNat := by
      rw [BitVec.toNat_add, hb, Nat.mod_eq_of_lt (by omega)]
    have hrs : (kmGetsize s.mem b - t).toNat = i.len - t.toNat := by
      rw [BitVec.toNat_sub_of_le (by rw [BitVec.le_def, hh.size]; omega), hh.size]
    have hbt16 : (b + t).toNat + 16 ≤ 2 ^ 32 := by omega
    have hb16 : b.toNat + 16 ≤ 2 ^ 32 := by omega
    -- the rest of the block becomes a free block of its own
    have hinit := headerAt_kmInitblock s.mem (p := b + t) (kmGetsize s.mem b - t)
      (by rw [hrs]; exact hrest.len_dvd) hbt16
    have c₁ := changesWithin_kmInitblock s.mem (kmGetsize s.mem b - t) hbt16
    rw [hrs] at hinit
    generalize hm₁ : kmInitblock s.mem (b + t) (kmGetsize s.mem b - t) = mem₁ at hinit c₁
    have f₁ : FreeSeg mem₁ s.freeList fs NULL :=
      hf.congr_apart c₁ hblk (fun x hx ↦ Interval.mem_iff.mpr (by omega)) hap
    obtain ⟨mem₂, fl, hr, f₂, c₂⟩ := kmInsert_spec (s := { s with mem := mem₁ })
      (i := ⟨i.lo + t.toNat, i.len - t.toNat⟩) hbt hinit hrest f₁ hs hblk fun j hj ↦ by
        have ha := hap j hj
        simp only [Interval.Apart, Interval.hi] at ha ⊢
        omega
    have hout : ∀ x, i.lo ≤ x → x < i.lo + t.toNat →
        ¬ (x ∈ (⟨i.lo + t.toNat, i.len - t.toNat⟩ : Interval) ∨ Covers fs x) := by
      rintro x h₁ h₂ (h₃ | ⟨j, hj, h₃⟩)
      · simp only [Interval.mem_iff] at h₃; omega
      · exact (hap j hj).not_mem (x := x) (Interval.mem_iff.mpr ⟨h₁, by omega⟩) h₃
    have hh₂ : HeaderAt mem₂ b i.len used :=
      (hh.congr c₁ hb16 (fun _ _ _ _ ↦ by omega) fun _ _ _ _ ↦ by omega).congr c₂ hb16
        (fun x _ _ ↦ hout x (by omega) (by omega)) fun x _ _ ↦ hout x (by omega) (by omega)
    -- only then the size of the first part is written
    have c₃ : ChangesWithin (fun x ↦ b.toNat ≤ x ∧ x < b.toNat + 4) mem₂ (kmSetsize mem₂ b t) :=
      changesWithin_metadata _ _ hb16
    refine ⟨kmSetsize mem₂ b t, fl, ?_, hh₂.kmSetsize t ht hb16, ?_, ?_⟩
    · simp only [bind, Except.bind, hm₁, hr]
    · refine f₂.congr c₃ (isBlock_insertMerge hrest hblk) fun j hj x h₁ h₂ h₃ ↦ ?_
      rcases mem_insertMerge_lo hj with he | ⟨m, hm, he⟩
      · dsimp only at he; omega
      · have ha := hap m hm
        have hm' := (hblk m hm).bounds
        simp only [Interval.Apart, Interval.hi] at ha
        omega
    · refine ((c₁.mono ?_).trans (c₂.mono ?_)).trans (c₃.mono ?_)
      · intro x hx
        right; left
        simp only [Interval.hi]
        omega
      · rintro x (hx | hx)
        · right; left
          simp only [Interval.mem_iff] at hx
          simp only [Interval.hi]
          omega
        · exact .inr (.inr hx)
      · intro x hx
        left
        omega

end AlienOS.Heap
