import AlienOS.Test.ProducerConsumer

/-!
# Buffer — what is in the ring and how far the two loops are
-/

open AlienOS.Lib

namespace AlienOS.Test

open AlienOS.Kernel

/-- The numbers from one up to `n`, as a loop counts them. -/
def firsts (n : Nat) : List Word := (List.range n).map fun j ↦ BitVec.ofNat 32 (j + 1)

theorem firsts_succ (n : Nat) : firsts (n + 1) = firsts n ++ [BitVec.ofNat 32 (n + 1)] := by
  simp [firsts, List.range_succ]

namespace Pc

/-- The thread has not yet handled its `i`. -/
def fresh : Pc → Nat
  | .advance | .load | .count | .verify | .signal | .release | .yield | .next => 0
  | _ => 1

/-- It has changed the buffer but not yet the index, or the size. -/
def turns : Pc → Nat
  | .advance => 1
  | _ => 0

def counts : Pc → Nat
  | .advance | .load | .count => 1
  | _ => 0

/-- It has read the buffer and not yet compared. -/
def IsHolding : Pc → Bool
  | .advance | .load | .count | .verify => true
  | _ => false

/-- It is past the test of the loop. -/
def IsInLoop : Pc → Bool
  | .test | .post | .finished => false
  | _ => true

def IsOver : Pc → Bool
  | .post | .finished => true
  | _ => false

end Pc

/-! ## One loop -/

/-- A loop up to `n` that has handled `values`. -/
structure Progress (n : Word) (l : Local) (values : List Word) : Prop where
  values_eq : values = firsts values.length
  index : l.i = BitVec.ofNat 32 (values.length + l.pc.fresh)
  bound : n.toNat + 1 < 2 ^ 32 → values.length ≤ n.toNat
  inLoop : l.pc.IsInLoop = true → l.i ≤ n
  /-- a loop up to the greatest number never ends -/
  ended : l.pc.IsOver = true → n.toNat + 1 < 2 ^ 32 ∧ values.length = n.toNat

namespace Progress

variable {n : Word} {l l' : Local} {values : List Word}

theorem move (h : Progress n l values) (hi : l'.i = l.i) (h₁ : l'.pc.fresh = l.pc.fresh)
    (h₂ : l'.pc.IsInLoop = true → l.pc.IsInLoop = true) (h₃ : l'.pc.IsOver = true → l.pc.IsOver = true) :
    Progress n l' values := by
  refine ⟨h.values_eq, ?_, h.bound, fun hl ↦ ?_, fun ho ↦ h.ended (h₃ ho)⟩
  · rw [hi, h₁]
    exact h.index
  · rw [hi]
    exact h.inLoop (h₂ hl)

/-- The counter as a number, while it can be told from zero. -/
theorem toNat_index (h : Progress n l values) (hn : n.toNat + 1 < 2 ^ 32) (hf : l.pc.fresh = 1) :
    l.i.toNat = values.length + 1 := by
  have := h.bound hn
  rw [h.index, hf, BitVec.toNat_ofNat]
  apply Nat.mod_eq_of_lt
  omega

/-- `i <= n` -/
theorem test (h : Progress n l values) (hpc : l.pc = .test) :
    Progress n { l with pc := if l.i ≤ n then .acquire else .post } values := by
  have hf : l.pc.fresh = 1 := by rw [hpc]; rfl
  by_cases hi : l.i ≤ n
  · rw [if_pos hi]
    refine ⟨h.values_eq, ?_, h.bound, fun _ ↦ hi, fun ho ↦ by cases ho⟩
    rw [h.index, hf]
    rfl
  · rw [if_neg hi]
    refine ⟨h.values_eq, ?_, h.bound, fun hl ↦ (by cases hl), fun _ ↦ ?_⟩
    · rw [h.index, hf]
      rfl
    · have hlt : n.toNat < l.i.toNat := by
        have := BitVec.not_le.mp hi
        rwa [BitVec.lt_def] at this
      have hn : n.toNat + 1 < 2 ^ 32 := by
        have := l.i.isLt
        omega
      have hindex := h.toNat_index hn hf
      have := h.bound hn
      refine ⟨hn, ?_⟩
      omega

/-- The body handles `i`. -/
theorem handle (h : Progress n l values) (l' : Local) (hi : l'.i = l.i) (hpc : l.pc = .item)
    (hpc' : l'.pc = .advance) {x : Word} (hx : x = BitVec.ofNat 32 (values.length + 1)) :
    Progress n l' (values ++ [x]) := by
  have hf : l.pc.fresh = 1 := by rw [hpc]; rfl
  have hlen : (values ++ [x]).length = values.length + 1 := by simp
  refine ⟨?_, ?_, fun hn ↦ ?_, fun _ ↦ ?_, fun ho ↦ ?_⟩
  · rw [hlen, firsts_succ, ← h.values_eq, hx]
  · rw [hi, hpc', hlen, h.index, hf]
    rfl
  · have hle : l.i.toNat ≤ n.toNat := h.inLoop (by rw [hpc]; rfl)
    rw [hlen, ← h.toNat_index hn hf]
    exact hle
  · rw [hi]
    exact h.inLoop (by rw [hpc]; rfl)
  · rw [hpc'] at ho
    cases ho

/-- `i++` -/
theorem next (h : Progress n l values) (hpc : l.pc = .next) :
    Progress n { l with pc := .test, i := l.i + 1 } values := by
  refine ⟨h.values_eq, ?_, h.bound, fun hl ↦ (by cases hl), fun ho ↦ (by cases ho)⟩
  show l.i + 1 = BitVec.ofNat 32 (values.length + 1)
  rw [h.index, hpc]
  exact (BitVec.ofNat_add _ _).symm

end Progress

/-! ## The ring -/

/-- `n` values have gone in and `m` of them have come out, the two threads being where they are. -/
structure Filled (ring : Ring) (n m : Nat) (producer consumer : Pc) : Prop where
  low : m + producer.counts ≤ n
  high : n + consumer.counts ≤ m + 8
  head_lt : ring.head.toNat < 8
  head : (ring.head.toNat + producer.turns) % 8 = n % 8
  tail_lt : ring.tail.toNat < 8
  tail : (ring.tail.toNat + consumer.turns) % 8 = m % 8
  size : ring.size.toNat + m + producer.counts = n + consumer.counts
  slots : ∀ j, m ≤ j → j < n → ring.buffer (j % 8) = BitVec.ofNat 32 (j + 1)
  room : producer = .item → n < m + 8
  item : consumer = .item → m < n

namespace Filled

variable {ring : Ring} {n m : Nat} {pp pc pp' pc' : Pc}

theorem size_le (h : Filled ring n m pp pc) : ring.size.toNat ≤ 8 := by
  have := h.low
  have := h.high
  have := h.size
  omega

theorem move (h : Filled ring n m pp pc) (h₁ : pp'.counts = pp.counts) (h₂ : pp'.turns = pp.turns)
    (h₃ : pc'.counts = pc.counts) (h₄ : pc'.turns = pc.turns) (hroom : pp' = .item → n < m + 8)
    (hitem : pc' = .item → m < n) : Filled ring n m pp' pc' := by
  refine ⟨?_, ?_, h.head_lt, ?_, h.tail_lt, ?_, ?_, h.slots, hroom, hitem⟩
  · rw [h₁]
    exact h.low
  · rw [h₃]
    exact h.high
  · rw [h₂]
    exact h.head
  · rw [h₄]
    exact h.tail
  · rw [h₁, h₃]
    exact h.size

/-- The producer writes into the slot at `head`. -/
theorem put (h : Filled ring n m .item pc) (hc : pc.counts = 0) :
    Filled { ring with
      buffer := Function.update ring.buffer ring.head.toNat (BitVec.ofNat 32 (n + 1)) }
      (n + 1) m .advance pc := by
  have hroom := h.room rfl
  have hhead : ring.head.toNat = n % 8 := by
    have := h.head
    have := h.head_lt
    simp only [Pc.turns] at *
    omega
  have hlow := h.low
  have hsize := h.size
  simp only [Pc.counts] at hlow hsize
  refine ⟨?_, ?_, h.head_lt, ?_, h.tail_lt, h.tail, ?_, fun j h₁ h₂ ↦ ?_, fun he ↦ (by cases he),
    fun he ↦ ?_⟩
  · simp only [Pc.counts]
    omega
  · omega
  · simp only [Pc.turns, hhead]
    omega
  · simp only [Pc.counts]
    omega
  · show Function.update ring.buffer ring.head.toNat _ (j % 8) = _
    by_cases hj : j = n
    · rw [hj, hhead, Function.update_self]
    · rw [Function.update_of_ne (by omega)]
      exact h.slots j h₁ (by omega)
  · have := h.item he
    omega

/-- What the consumer finds at `tail`. -/
theorem front (h : Filled ring n m pp .item) :
    ring.buffer ring.tail.toNat = BitVec.ofNat 32 (m + 1) := by
  have htail : ring.tail.toNat = m % 8 := by
    have := h.tail
    have := h.tail_lt
    simp only [Pc.turns] at *
    omega
  rw [htail]
  exact h.slots m (Nat.le_refl m) (h.item rfl)

theorem take (h : Filled ring n m pp .item) (hp : pp.counts = 0) :
    Filled ring n (m + 1) pp .advance := by
  have hitem := h.item rfl
  have htail := h.tail
  have hhigh := h.high
  have hsize := h.size
  simp only [Pc.counts, Pc.turns] at htail hhigh hsize
  refine ⟨?_, ?_, h.head_lt, h.head, h.tail_lt, ?_, ?_, fun j h₁ h₂ ↦ h.slots j (by omega) h₂,
    fun he ↦ ?_, fun he ↦ (by cases he)⟩
  · omega
  · simp only [Pc.counts]
    omega
  · simp only [Pc.turns]
    omega
  · simp only [Pc.counts]
    omega
  · have := h.room he
    omega

/-- An index of the ring goes on by one. -/
theorem advance_index {k : Word} (hk : k.toNat < 8) :
    ((k + 1) % bufferSize).toNat = (k.toNat + 1) % 8 := by
  have h8 : (8 : Word).toNat = 8 := rfl
  have h1 : (1 : Word).toNat = 1 := rfl
  unfold bufferSize
  rw [BitVec.toNat_umod, BitVec.toNat_add, h8, h1, Nat.mod_eq_of_lt (a := k.toNat + 1) (by omega)]

theorem advance_head (h : Filled ring n m .advance pc) :
    Filled { ring with head := (ring.head + 1) % bufferSize } n m .load pc := by
  have hhead := h.head
  refine ⟨h.low, h.high, ?_, ?_, h.tail_lt, h.tail, h.size, h.slots, fun he ↦ (by cases he), h.item⟩
  · rw [advance_index h.head_lt]
    exact Nat.mod_lt _ (by decide)
  · rw [advance_index h.head_lt]
    simp only [Pc.turns] at *
    omega

theorem advance_tail (h : Filled ring n m pp .advance) :
    Filled { ring with tail := (ring.tail + 1) % bufferSize } n m pp .load := by
  have htail := h.tail
  refine ⟨h.low, h.high, h.head_lt, h.head, ?_, ?_, h.size, h.slots, h.room, fun he ↦ (by cases he)⟩
  · rw [advance_index h.tail_lt]
    exact Nat.mod_lt _ (by decide)
  · rw [advance_index h.tail_lt]
    simp only [Pc.turns] at *
    omega

theorem count_in (h : Filled ring n m .count pc) :
    Filled { ring with size := ring.size + 1 } n m .signal pc := by
  have hle := h.size_le
  have hsize := h.size
  have hlow := h.low
  have hnew : (ring.size + 1).toNat = ring.size.toNat + 1 := by
    rw [BitVec.toNat_add]
    exact Nat.mod_eq_of_lt (by
      show ring.size.toNat + 1 < _
      omega)
  simp only [Pc.counts] at hsize hlow
  refine ⟨?_, h.high, h.head_lt, h.head, h.tail_lt, h.tail, ?_, h.slots, fun he ↦ (by cases he),
    h.item⟩
  · simp only [Pc.counts]
    omega
  · simp only [hnew, Pc.counts]
    omega

theorem count_out (h : Filled ring n m pp .count) :
    Filled { ring with size := ring.size - 1 } n m pp .verify := by
  have hc : Pc.count.counts = 1 := rfl
  have hv : Pc.verify.counts = 0 := rfl
  have hlow := h.low
  have hhigh := h.high
  have hsize := h.size
  rw [hc] at hhigh hsize
  have hpos : 1 ≤ ring.size.toNat := by omega
  have hnew : (ring.size - 1).toNat = ring.size.toNat - 1 :=
    BitVec.toNat_sub_of_le (BitVec.le_def.mpr hpos)
  refine ⟨hlow, ?_, h.head_lt, h.head, h.tail_lt, h.tail, ?_, h.slots, h.room, fun he ↦ (by cases he)⟩
  · rw [hv]
    omega
  · rw [hnew, hv]
    omega

end Filled

/-! ## Both -/

structure Books (data : TestCondvar) (w : World) : Prop where
  producer : Progress data.kNumIterations w.producer w.produced
  consumer : Progress data.kNumIterations w.consumer w.consumed
  filled : Filled w.ring w.produced.length w.consumed.length w.producer.pc w.consumer.pc
  val : w.consumer.pc.IsHolding = true → w.consumer.val = BitVec.ofNat 32 w.consumed.length
  /-- nobody else changes the size between the two halves of `data->size++` -/
  producerSize : w.producer.pc = .count → w.producer.size = w.ring.size
  consumerSize : w.consumer.pc = .count → w.consumer.size = w.ring.size

/-- A statement from `p` to `p'` that changes nothing the books speak of. -/
structure Pc.Keeps (p p' : Pc) : Prop where
  fresh : p'.fresh = p.fresh
  turns : p'.turns = p.turns
  counts : p'.counts = p.counts
  holds : p'.IsHolding = true → p.IsHolding = true
  inLoop : p'.IsInLoop = true → p.IsInLoop = true
  isOver : p'.IsOver = true → p.IsOver = true
  not_count : p' ≠ .count

namespace Books

variable {data : TestCondvar} {w : World} {p p' : Pc}

theorem call (h : Books data w) (c : Call) : Books data (w.call c) :=
  ⟨h.producer, h.consumer, h.filled, h.val, h.producerSize, h.consumerSize⟩

theorem producerAt (h : Books data w) (hpc : w.producer.pc = p) (hk : p.Keeps p')
    (hroom : p' = .item → w.produced.length < w.consumed.length + 8) :
    Books data (w.producerAt p') := by
  subst hpc
  exact ⟨h.producer.move rfl hk.fresh hk.inLoop hk.isOver, h.consumer,
    h.filled.move hk.counts hk.turns rfl rfl hroom h.filled.item, h.val,
    fun he ↦ absurd he hk.not_count, h.consumerSize⟩

theorem consumerAt (h : Books data w) (hpc : w.consumer.pc = p) (hk : p.Keeps p')
    (hitem : p' = .item → w.consumed.length < w.produced.length) : Books data (w.consumerAt p') := by
  subst hpc
  exact ⟨h.producer, h.consumer.move rfl hk.fresh hk.inLoop hk.isOver,
    h.filled.move rfl rfl hk.counts hk.turns h.filled.room hitem, fun hh ↦ h.val (hk.holds hh),
    h.producerSize, fun he ↦ absurd he hk.not_count⟩

/-- A statement of the producer, while the consumer is at no statement that changes the ring. -/
theorem producer_statement (h : Books data w)
    (hc : w.producer.pc.IsInside = true → w.consumer.pc.counts = 0) :
    Books data (testCondvarProducer data w) := by
  unfold testCondvarProducer
  cases hpc : w.producer.pc with
  | test =>
    have hprogress := h.producer.test hpc
    by_cases hi : w.producer.i ≤ data.kNumIterations
    · rw [if_pos hi] at hprogress
      simp only [if_pos hi]
      exact ⟨hprogress, h.consumer,
        h.filled.move (by rw [hpc]; rfl) (by rw [hpc]; rfl) rfl rfl (fun he ↦ by cases he)
          h.filled.item, h.val, fun he ↦ (by cases he), h.consumerSize⟩
    · rw [if_neg hi] at hprogress
      simp only [if_neg hi]
      exact ⟨hprogress, h.consumer,
        h.filled.move (by rw [hpc]; rfl) (by rw [hpc]; rfl) rfl rfl (fun he ↦ by cases he)
          h.filled.item, h.val, fun he ↦ (by cases he), h.consumerSize⟩
  | acquire => exact (h.call _).producerAt hpc (by constructor <;> decide) (by simp)
  | check =>
    have hcounts := hc (by rw [hpc]; rfl)
    have hsize := h.filled.size
    rw [hpc, hcounts] at hsize
    have hle := h.filled.size_le
    simp only
    split
    · exact h.producerAt hpc (by constructor <;> decide) (by simp)
    · rename_i hne
      apply h.producerAt hpc (by constructor <;> decide)
      intro _
      have hlt : w.ring.size.toNat ≠ 8 := fun he ↦ hne (BitVec.eq_of_toNat_eq he)
      simp only [Pc.counts] at hsize
      omega
  | wait => exact (h.call _).producerAt hpc (by constructor <;> decide) (by simp)
  | item =>
    have hfilled := h.filled
    rw [hpc] at hfilled
    have hi : w.producer.i = BitVec.ofNat 32 (w.produced.length + 1) := by
      rw [h.producer.index, hpc]
      rfl
    have hput := hfilled.put (hc (by rw [hpc]; rfl))
    rw [← hi] at hput
    refine ⟨h.producer.handle { w.producer with pc := .advance } rfl hpc rfl hi, h.consumer,
      ?_, h.val, fun he ↦ (by cases he), h.consumerSize⟩
    show Filled _ (w.produced ++ [w.producer.i]).length _ _ _
    rw [List.length_append]
    exact hput
  | advance =>
    have hfilled := h.filled
    rw [hpc] at hfilled
    exact ⟨h.producer.move rfl (by rw [hpc]; rfl) (by rw [hpc]; exact id) (by rw [hpc]; exact id),
      h.consumer, hfilled.advance_head, h.val, fun he ↦ (by cases he), h.consumerSize⟩
  | load =>
    exact ⟨h.producer.move rfl (by rw [hpc]; rfl) (by rw [hpc]; exact id) (by rw [hpc]; exact id),
      h.consumer,
      h.filled.move (by rw [hpc]; rfl) (by rw [hpc]; rfl) rfl rfl (fun he ↦ by cases he)
        h.filled.item,
      h.val, fun _ ↦ rfl, h.consumerSize⟩
  | count =>
    have hfilled := h.filled
    rw [hpc] at hfilled
    have hcounts := hc (by rw [hpc]; rfl)
    have hin := hfilled.count_in
    rw [← h.producerSize hpc] at hin
    refine ⟨h.producer.move rfl (by rw [hpc]; rfl) (by rw [hpc]; exact id) (by rw [hpc]; exact id),
      h.consumer, hin, h.val, fun he ↦ (by cases he), fun he ↦ ?_⟩
    have hcount : w.consumer.pc = .count := he
    rw [hcount] at hcounts
    cases hcounts
  | signal => exact (h.call _).producerAt hpc (by constructor <;> decide) (by simp)
  | release => exact (h.call _).producerAt hpc (by constructor <;> decide) (by simp)
  | yield => exact (h.call _).producerAt hpc (by constructor <;> decide) (by simp)
  | next =>
    exact ⟨h.producer.next hpc, h.consumer,
      h.filled.move (by rw [hpc]; rfl) (by rw [hpc]; rfl) rfl rfl (by simp) h.filled.item, h.val,
      fun he ↦ (by cases he), h.consumerSize⟩
  | post => exact (h.call _).producerAt hpc (by constructor <;> decide) (by simp)
  | verify => exact h
  | finished => exact h

/-- A statement of the consumer, while the producer is at no statement that changes the ring: its
assertion holds. -/
theorem consumer_statement (h : Books data w)
    (hp : w.consumer.pc.IsInside = true → w.producer.pc.counts = 0) :
    ∃ w', testCondvarConsumer data w = .ok w' ∧ Books data w' := by
  unfold testCondvarConsumer
  cases hpc : w.consumer.pc with
  | test =>
    have hprogress := h.consumer.test hpc
    refine ⟨_, rfl, ?_⟩
    by_cases hi : w.consumer.i ≤ data.kNumIterations
    · rw [if_pos hi] at hprogress
      simp only [if_pos hi]
      exact ⟨h.producer, hprogress,
        h.filled.move rfl rfl (by rw [hpc]; rfl) (by rw [hpc]; rfl) h.filled.room
          (fun he ↦ by cases he), fun hh ↦ (by cases hh), h.producerSize, fun he ↦ (by cases he)⟩
    · rw [if_neg hi] at hprogress
      simp only [if_neg hi]
      exact ⟨h.producer, hprogress,
        h.filled.move rfl rfl (by rw [hpc]; rfl) (by rw [hpc]; rfl) h.filled.room
          (fun he ↦ by cases he), fun hh ↦ (by cases hh), h.producerSize, fun he ↦ (by cases he)⟩
  | acquire => exact ⟨_, rfl, (h.call _).consumerAt hpc (by constructor <;> decide) (by simp)⟩
  | check =>
    refine ⟨_, rfl, ?_⟩
    have hsize := h.filled.size
    rw [hpc] at hsize
    split
    · exact h.consumerAt hpc (by constructor <;> decide) (by simp)
    · rename_i hne
      apply h.consumerAt hpc (by constructor <;> decide)
      intro _
      have hlt : w.ring.size.toNat ≠ 0 := fun he ↦ hne (BitVec.eq_of_toNat_eq he)
      have hzero : Pc.check.counts = 0 := rfl
      rw [hzero] at hsize
      omega
  | wait => exact ⟨_, rfl, (h.call _).consumerAt hpc (by constructor <;> decide) (by simp)⟩
  | item =>
    have hfilled := h.filled
    rw [hpc] at hfilled
    have hval := hfilled.front
    refine ⟨_, rfl, h.producer, h.consumer.handle
      { w.consumer with pc := .advance, val := w.ring.buffer w.ring.tail.toNat } rfl hpc rfl hval,
      ?_, fun _ ↦ ?_, h.producerSize, fun he ↦ (by cases he)⟩
    · show Filled _ _ (w.consumed ++ [_]).length _ _
      rw [List.length_append]
      exact hfilled.take (hp (by rw [hpc]; rfl))
    · show w.ring.buffer w.ring.tail.toNat = BitVec.ofNat 32 (w.consumed ++ [_]).length
      rw [List.length_append]
      exact hval
  | advance =>
    have hfilled := h.filled
    rw [hpc] at hfilled
    exact ⟨_, rfl, h.producer,
      h.consumer.move rfl (by rw [hpc]; rfl) (by rw [hpc]; exact id) (by rw [hpc]; exact id),
      hfilled.advance_tail, fun _ ↦ h.val (by rw [hpc]; rfl), h.producerSize, fun he ↦ (by cases he)⟩
  | load =>
    exact ⟨_, rfl, h.producer,
      h.consumer.move rfl (by rw [hpc]; rfl) (by rw [hpc]; exact id) (by rw [hpc]; exact id),
      h.filled.move rfl rfl (by rw [hpc]; rfl) (by rw [hpc]; rfl) h.filled.room
        (fun he ↦ by cases he),
      fun _ ↦ h.val (by rw [hpc]; rfl), h.producerSize, fun _ ↦ rfl⟩
  | count =>
    have hfilled := h.filled
    rw [hpc] at hfilled
    have hcounts := hp (by rw [hpc]; rfl)
    have hout := hfilled.count_out
    rw [← h.consumerSize hpc] at hout
    refine ⟨_, rfl, h.producer,
      h.consumer.move rfl (by rw [hpc]; rfl) (by rw [hpc]; exact id) (by rw [hpc]; exact id),
      hout, fun _ ↦ h.val (by rw [hpc]; rfl), fun he ↦ ?_, fun he ↦ (by cases he)⟩
    have hcount : w.producer.pc = .count := he
    rw [hcount] at hcounts
    cases hcounts
  | verify =>
    have hval := h.val (by rw [hpc]; rfl)
    have hindex := h.consumer.index
    rw [hpc] at hindex
    have heq : (w.consumer.val == w.consumer.i) = true := by
      rw [hval, hindex]
      exact beq_self_eq_true _
    refine ⟨w.consumerAt .signal, ?_, h.consumerAt hpc (by constructor <;> decide) (by simp)⟩
    simp only [heq, kernelAssert, if_true]
    rfl
  | signal => exact ⟨_, rfl, (h.call _).consumerAt hpc (by constructor <;> decide) (by simp)⟩
  | release => exact ⟨_, rfl, (h.call _).consumerAt hpc (by constructor <;> decide) (by simp)⟩
  | next =>
    exact ⟨_, rfl, h.producer, h.consumer.next hpc,
      h.filled.move rfl rfl (by rw [hpc]; rfl) (by rw [hpc]; rfl) h.filled.room (by simp),
      fun hh ↦ (by cases hh), h.producerSize, fun he ↦ (by cases he)⟩
  | post => exact ⟨_, rfl, (h.call _).consumerAt hpc (by constructor <;> decide) (by simp)⟩
  | yield => exact ⟨_, rfl, h⟩
  | finished => exact ⟨_, rfl, h⟩

end Books

end AlienOS.Test
