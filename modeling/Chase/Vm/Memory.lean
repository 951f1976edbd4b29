import Chase.Vm.Opcode

/-!
# Stack and memory of the machine

The stack holds words, the top first. The memory is the bytes that were written so far, and an
effective length, always a multiple of 32, that an instruction extends before it reads or writes:
bytes inside of it that were never written are zero.

`byteAt` is the memory as a function of the position; every operation is described by what it does
to that function.
-/

namespace Chase.Vm

/-- `usize::MAX`, on a machine of 64 bits. -/
def usizeMax : Nat := 2 ^ 64 - 1

/-- `U256::checked_add`. -/
def checkedAdd (x y : U256) : Option U256 :=
  if x.toNat + y.toNat < 2 ^ 256 then some (x + y) else none

/-! ## Bytes of a word -/

/-- The 32 bytes of a word, the highest first. -/
def toBytes (w : U256) : Bytes :=
  (List.range 32).map fun i => UInt8.ofNat (w.toNat / 2 ^ (8 * (31 - i)))

/-- The word of a list of bytes (`from_big_endian`, `H256::from_slice`). -/
def ofBytes (bytes : Bytes) : U256 :=
  BitVec.ofNat 256 (bytes.foldl (fun n b => n * 256 + b.toNat) 0)

/-! ## Stack -/

/-- `Stack`. -/
structure Stack where
  data : List H256 := []
  limit : Nat
  deriving DecidableEq, Repr

namespace Stack

variable (s : Stack)

/-- `pop`. -/
def pop : Except ExitError H256 × Stack :=
  match s.data with
  | [] => (.error .stackUnderflow, s)
  | v :: data => (.ok v, { s with data })

/-- `push`. -/
def push (v : H256) : Except ExitError Unit × Stack :=
  if s.limit < s.data.length + 1 then (.error .stackOverflow, s)
  else (.ok (), { s with data := v :: s.data })

/-- `peek`. -/
def peek (noFromTop : Nat) : Except ExitError H256 :=
  match s.data[noFromTop]? with
  | some v => .ok v
  | none => .error .stackUnderflow

/-- `set`. -/
def set (noFromTop : Nat) (v : H256) : Except ExitError Unit × Stack :=
  if noFromTop < s.data.length then (.ok (), { s with data := s.data.set noFromTop v })
  else (.error .stackUnderflow, s)

end Stack

/-! ## Memory -/

/-- `Memory`. -/
structure Memory where
  data : Bytes := []
  effectiveLen : U256 := 0#256
  limit : Nat
  deriving DecidableEq, Repr

/-- `next_multiple_of_32`. -/
def nextMultipleOf32 (x : U256) : Option U256 :=
  let r := (~~~(x.setWidth 32 &&& 31#32) + 1#32) &&& 31#32
  checkedAdd x (r.setWidth 256)

namespace Memory

variable (m : Memory)

/-- `resize_end`. -/
def resizeEnd (finish : U256) : Except ExitError Unit × Memory :=
  if m.effectiveLen < finish then
    match nextMultipleOf32 finish with
    | none => (.error .invalidRange, m)
    | some effectiveLen => (.ok (), { m with effectiveLen })
  else (.ok (), m)

/-- `resize_offset`. -/
def resizeOffset (offset len : U256) : Except ExitError Unit × Memory :=
  if len = 0#256 then (.ok (), m)
  else
    match checkedAdd offset len with
    | some finish => m.resizeEnd finish
    | none => (.error .invalidRange, m)

/-- `get`. -/
def get (offset size : Nat) : Bytes :=
  (List.range size).map fun index => m.data.getD (offset + index) 0

/-- `set`. -/
def set (offset : Nat) (value : Bytes) (targetSize : Option Nat) : Except ExitFatal Unit × Memory :=
  let targetSize := targetSize.getD value.length
  if targetSize = 0 then (.ok (), m)
  else if usizeMax < offset + targetSize ∨ m.limit < offset + targetSize then
    (.error .notSupported, m)
  else
    let data := m.data ++ List.replicate (offset + targetSize - m.data.length) 0
    let value := value.take targetSize ++ List.replicate (targetSize - value.length) 0
    (.ok (), { m with data := data.take offset ++ value ++ data.drop (offset + targetSize) })

/-- The part of `data` that `copy_large` copies. -/
def slice (data : Bytes) (dataOffset len : U256) : Bytes :=
  match checkedAdd dataOffset len with
  | none => []
  | some finish =>
    if usizeMax < finish.toNat then []
    else if data.length < dataOffset.toNat then []
    else (data.take finish.toNat).drop dataOffset.toNat

/-- `copy_large`. -/
def copyLarge (memoryOffset dataOffset len : U256) (data : Bytes) :
    Except ExitFatal Unit × Memory :=
  if len = 0#256 then (.ok (), m)
  else if usizeMax < memoryOffset.toNat then (.error .notSupported, m)
  else if usizeMax < len.toNat then (.error .notSupported, m)
  else m.set memoryOffset.toNat (slice data dataOffset len) (some len.toNat)

end Memory

/-! ## What the stack operations keep -/

namespace Stack

/-- The stack has at most as many words as its limit. -/
def Wf (s : Stack) : Prop := s.data.length ≤ s.limit

variable {s : Stack}

theorem limit_pop : s.pop.2.limit = s.limit := by
  rw [pop]
  split <;> rfl

theorem limit_push {v : H256} : (s.push v).2.limit = s.limit := by
  rw [push]
  split <;> rfl

theorem limit_set {n : Nat} {v : H256} : (s.set n v).2.limit = s.limit := by
  rw [set]
  split <;> rfl

theorem Wf.pop (h : s.Wf) : s.pop.2.Wf := by
  rw [Stack.pop]
  split
  · exact h
  · rename_i v data hdata
    rw [Wf, hdata, List.length_cons] at h
    exact Nat.le_of_succ_le h

theorem Wf.push {v : H256} (h : s.Wf) : (s.push v).2.Wf := by
  rw [Stack.push]
  split
  · exact h
  · rename_i hlimit
    exact Nat.not_lt.1 hlimit

theorem Wf.set {n : Nat} {v : H256} (h : s.Wf) : (s.set n v).2.Wf := by
  rw [Stack.set]
  split
  · rw [Wf, List.length_set]
    exact h
  · exact h

end Stack

/-! ## The effective length -/

/-- The least multiple of 32 from a number on. -/
def ceil32 (n : Nat) : Nat := (n + 31) / 32 * 32

/-- A length is rounded up. -/
theorem le_ceil32 (n : Nat) : n ≤ ceil32 n := by
  rw [ceil32]
  omega

/-- The rounding to words is monotone. -/
theorem ceil32_mono {m n : Nat} (h : m ≤ n) : ceil32 m ≤ ceil32 n := by
  rw [ceil32, ceil32]
  omega

theorem dvd_ceil32 (n : Nat) : 32 ∣ ceil32 n := Nat.dvd_mul_left _ _

theorem ceil32_of_dvd {n : Nat} (h : 32 ∣ n) : ceil32 n = n := by
  rw [ceil32]
  omega

/-- `checked_add` gives the sum of the numbers. -/
theorem checkedAdd_eq_some {x y z : U256} :
    checkedAdd x y = some z ↔ z.toNat = x.toNat + y.toNat := by
  rw [checkedAdd]
  have hz := z.isLt
  split
  · rename_i hlt
    have hadd : (x + y).toNat = x.toNat + y.toNat := BitVec.toNat_add_of_lt hlt
    rw [Option.some.injEq, ← BitVec.toNat_inj, hadd]
    exact eq_comm
  · constructor
    · exact fun h => absurd h (by simp)
    · omega

/-- `checked_add` fails exactly when the sum does not fit. -/
theorem checkedAdd_eq_none {x y : U256} : checkedAdd x y = none ↔ 2 ^ 256 ≤ x.toNat + y.toNat := by
  rw [checkedAdd]
  split
  · rename_i hlt
    exact ⟨fun h => absurd h (by simp), fun h => absurd hlt (by omega)⟩
  · rename_i hlt
    exact ⟨fun _ => Nat.not_lt.1 hlt, fun _ => rfl⟩

/-- `next_multiple_of_32` gives the rounded length. -/
theorem nextMultipleOf32_eq_some {x y : U256} :
    nextMultipleOf32 x = some y ↔ y.toNat = ceil32 x.toNat := by
  have hlow : (x.setWidth 32 &&& 31#32).toNat = x.toNat % 32 := by
    rw [BitVec.toNat_and, BitVec.toNat_setWidth, show (31#32).toNat = 2 ^ 5 - 1 from rfl,
      Nat.and_two_pow_sub_one_eq_mod]
    omega
  have hr : ((~~~(x.setWidth 32 &&& 31#32) + 1#32) &&& 31#32).toNat = (32 - x.toNat % 32) % 32 := by
    rw [BitVec.toNat_and, BitVec.toNat_add, BitVec.toNat_not, hlow,
      show (31#32).toNat = 2 ^ 5 - 1 from rfl, show (1#32).toNat = 1 from rfl,
      Nat.and_two_pow_sub_one_eq_mod]
    omega
  rw [nextMultipleOf32, checkedAdd_eq_some, BitVec.toNat_setWidth_of_le (by decide), hr, ceil32]
  omega

/-- `next_multiple_of_32` fails only when the rounded length does not fit. -/
theorem nextMultipleOf32_eq_none {x : U256} (h : nextMultipleOf32 x = none) :
    2 ^ 256 ≤ ceil32 x.toNat := by
  by_contra hlt
  have hsome : nextMultipleOf32 x = some (BitVec.ofNat 256 (ceil32 x.toNat)) := by
    rw [nextMultipleOf32_eq_some, BitVec.toNat_ofNat, Nat.mod_eq_of_lt (Nat.not_le.1 hlt)]
  rw [h] at hsome
  exact absurd hsome (by simp)

namespace Memory

/-- The effective length is a multiple of 32 and covers the bytes; they are within the limit. -/
structure Wf (m : Memory) : Prop where
  dvd : 32 ∣ m.effectiveLen.toNat
  length_le : m.data.length ≤ m.effectiveLen.toNat
  length_le_limit : m.data.length ≤ m.limit

/-- The effective length covers a range. -/
def Covers (m : Memory) (offset len : Nat) : Prop := len = 0 ∨ offset + len ≤ m.effectiveLen.toNat

variable {m : Memory}

/-- A new memory keeps its invariant. -/
theorem wf_new (limit : Nat) : Wf { limit } :=
  ⟨Nat.dvd_zero 32, Nat.zero_le _, Nat.zero_le _⟩

/-- Where the effective length has to reach for a range. -/
def rangeEnd (offset len : Nat) : Nat := if len = 0 then 0 else ceil32 (offset + len)

/-- `resize_end` fails when the rounded end does not fit, and otherwise grows the effective length
to it. -/
theorem resizeEnd_cases (h : 32 ∣ m.effectiveLen.toNat) (finish : U256) :
    (m.resizeEnd finish = (.error .invalidRange, m) ∧ 2 ^ 256 ≤ ceil32 finish.toNat) ∨
      ∃ effectiveLen, m.resizeEnd finish = (.ok (), { m with effectiveLen }) ∧
        effectiveLen.toNat = max m.effectiveLen.toNat (ceil32 finish.toNat) := by
  rw [resizeEnd]
  split
  · rename_i hlt
    have hlt : m.effectiveLen.toNat < finish.toNat := hlt
    split
    · rename_i hnone
      exact .inl ⟨rfl, nextMultipleOf32_eq_none hnone⟩
    · rename_i effectiveLen hsome
      rw [nextMultipleOf32_eq_some] at hsome
      refine .inr ⟨effectiveLen, rfl, ?_⟩
      have := le_ceil32 finish.toNat
      omega
  · rename_i hle
    have hle : finish.toNat ≤ m.effectiveLen.toNat := Nat.not_lt.1 hle
    refine .inr ⟨m.effectiveLen, rfl, ?_⟩
    have := ceil32_mono hle
    rw [ceil32_of_dvd h] at this
    omega

/-- What `resize_offset` does: the effective length grows to cover the range, unless there is no
word for it. -/
theorem resizeOffset_cases (h : 32 ∣ m.effectiveLen.toNat) (offset len : U256) :
    (m.resizeOffset offset len = (.error .invalidRange, m) ∧
        2 ^ 256 ≤ rangeEnd offset.toNat len.toNat) ∨
      ∃ effectiveLen, m.resizeOffset offset len = (.ok (), { m with effectiveLen }) ∧
        effectiveLen.toNat = max m.effectiveLen.toNat (rangeEnd offset.toNat len.toNat) := by
  rw [resizeOffset, rangeEnd]
  split
  · rename_i hzero
    subst hzero
    exact .inr ⟨m.effectiveLen, rfl, (Nat.max_eq_left (Nat.zero_le _)).symm⟩
  · rename_i hne
    rw [if_neg (I256.pos_of_ne_zero hne).ne']
    split
    · rename_i finish hsome
      rw [← checkedAdd_eq_some.1 hsome]
      exact resizeEnd_cases h finish
    · rename_i hnone
      rw [checkedAdd_eq_none] at hnone
      exact .inl ⟨rfl, hnone.trans (le_ceil32 _)⟩

/-- A range that ends below the effective length is covered. -/
theorem covers_of_rangeEnd_le {offset len : Nat} (h : rangeEnd offset len ≤ m.effectiveLen.toNat) :
    m.Covers offset len := by
  rw [rangeEnd] at h
  split at h
  · exact .inl ‹_›
  · exact .inr ((le_ceil32 _).trans h)

/-- A memory whose effective length grows to the end of a range keeps its invariant. -/
theorem Wf.withEffectiveLen {effectiveLen : U256} {offset len : Nat} (h : m.Wf)
    (he : effectiveLen.toNat = max m.effectiveLen.toNat (rangeEnd offset len)) :
    Wf { m with effectiveLen } := by
  refine ⟨?_, ?_, h.length_le_limit⟩
  · dsimp only
    rw [he, rangeEnd]
    rcases max_choice m.effectiveLen.toNat (if len = 0 then 0 else ceil32 (offset + len))
      with hm | hm
    · rw [hm]
      exact h.dvd
    · rw [hm]
      split
      · exact Nat.dvd_zero _
      · exact dvd_ceil32 _
  · dsimp only
    have := h.length_le
    omega

/-! ## Reading and writing -/

/-- The byte at a position. -/
def byteAt (m : Memory) (p : Nat) : UInt8 := m.data.getD p 0

/-- Bytes beyond the end read as zero, so an appended zero changes no read. -/
theorem getD_append_replicate (l : Bytes) (n p : Nat) :
    (l ++ List.replicate n 0).getD p 0 = l.getD p 0 := by
  rw [List.getD_eq_getElem?_getD, List.getD_eq_getElem?_getD]
  by_cases h : p < l.length
  · rw [List.getElem?_append_left h]
  · rw [List.getElem?_append_right (Nat.not_lt.1 h), List.getElem?_eq_none (Nat.not_lt.1 h),
      List.getElem?_replicate]
    split <;> rfl

/-- What `set` does to the bytes. -/
theorem set_cases (offset : Nat) (value : Bytes) (targetSize : Nat) :
    m.set offset value (some targetSize) = (.error .notSupported, m) ∨
      ∃ data, m.set offset value (some targetSize) = (.ok (), { m with data }) ∧
        (targetSize = 0 ∨ offset + targetSize ≤ m.limit) ∧
        data.length = max m.data.length (if targetSize = 0 then 0 else offset + targetSize) ∧
        ∀ p, data.getD p 0 =
          if offset ≤ p ∧ p < offset + targetSize then value.getD (p - offset) 0
          else m.byteAt p := by
  rw [set, Option.getD_some]
  split
  · rename_i hzero
    subst hzero
    refine .inr ⟨m.data, rfl, .inl rfl, (Nat.max_eq_left (Nat.zero_le _)).symm, fun p => ?_⟩
    rw [if_neg (by omega), byteAt]
  · rename_i hpos
    split
    · exact .inl rfl
    · rename_i hlimit
      refine .inr ⟨_, rfl, .inr (by omega), ?_, fun p => ?_⟩
      · simp only [List.length_append, List.length_take, List.length_drop, List.length_replicate]
        omega
      · have hvalue : (value.take targetSize ++
            List.replicate (targetSize - value.length) 0).length = targetSize := by
          simp only [List.length_append, List.length_take, List.length_replicate]
          omega
        have hoffset : ((m.data ++ List.replicate (offset + targetSize - m.data.length) 0).take
            offset).length = offset := by
          simp only [List.length_append, List.length_take, List.length_replicate]
          omega
        rw [byteAt, List.getD_eq_getElem?_getD, List.append_assoc]
        by_cases hlow : p < offset
        · rw [if_neg (by omega), List.getElem?_append_left (by omega), List.getElem?_take_of_lt
            hlow, ← List.getD_eq_getElem?_getD, getD_append_replicate]
        · rw [List.getElem?_append_right (by omega), hoffset]
          by_cases hhigh : p < offset + targetSize
          · rw [if_pos ⟨by omega, hhigh⟩, List.getElem?_append_left (by omega),
              ← List.getD_eq_getElem?_getD, getD_append_replicate, List.getD_eq_getElem?_getD,
              List.getElem?_take_of_lt (by omega), ← List.getD_eq_getElem?_getD]
          · rw [if_neg (by omega), List.getElem?_append_right (by omega), hvalue,
              List.getElem?_drop,
              show offset + targetSize + (p - offset - targetSize) = p by omega,
              ← List.getD_eq_getElem?_getD, getD_append_replicate]

/-- A write into the part that the effective length covers. -/
theorem Wf.set {offset targetSize : Nat} {value : Bytes} (h : m.Wf)
    (hc : m.Covers offset targetSize) : (m.set offset value (some targetSize)).2.Wf := by
  rcases set_cases (m := m) offset value targetSize with heq | ⟨data, heq, hlimit, hlen, -⟩
  · rw [heq]
    exact h
  · rw [heq]
    have hl := h.length_le
    have hlim := h.length_le_limit
    refine ⟨h.dvd, ?_, ?_⟩
    · dsimp only
      rcases hc with hc | hc <;> split at hlen <;> omega
    · dsimp only
      rcases hlimit with hc | hc <;> split at hlen <;> omega

/-- A write changes neither the effective length nor the limit. -/
theorem effectiveLen_set (offset : Nat) (value : Bytes) (targetSize : Nat) :
    (m.set offset value (some targetSize)).2.effectiveLen = m.effectiveLen ∧
      (m.set offset value (some targetSize)).2.limit = m.limit := by
  rcases set_cases (m := m) offset value targetSize with heq | ⟨data, heq, -⟩ <;> rw [heq] <;>
    exact ⟨rfl, rfl⟩

/-- A copy into a covered range keeps the invariant of the memory. -/
theorem Wf.copyLarge {memoryOffset dataOffset len : U256} {data : Bytes} (h : m.Wf)
    (hc : m.Covers memoryOffset.toNat len.toNat) :
    (m.copyLarge memoryOffset dataOffset len data).2.Wf := by
  rw [Memory.copyLarge]
  split
  · exact h
  split
  · exact h
  split
  · exact h
  · exact h.set hc

/-- A copy changes neither the effective length nor the limit. -/
theorem effectiveLen_copyLarge (memoryOffset dataOffset len : U256) (data : Bytes) :
    (m.copyLarge memoryOffset dataOffset len data).2.effectiveLen = m.effectiveLen ∧
      (m.copyLarge memoryOffset dataOffset len data).2.limit = m.limit := by
  rw [copyLarge]
  split
  · exact ⟨rfl, rfl⟩
  split
  · exact ⟨rfl, rfl⟩
  split
  · exact ⟨rfl, rfl⟩
  · exact effectiveLen_set ..

end Memory

end Chase.Vm
